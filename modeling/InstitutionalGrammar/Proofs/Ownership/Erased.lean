/-
  InstitutionalGrammar.Proofs.Ownership.Erased — what is left when properties are dropped by their keys.

  Keys are dropped one after another, from trees that shrink and whose suffixes move up while others are still to
  come. A leaf that stays keeps the suffix that applies to it, so a later key finds it if and only if it would
  have found it at first: what is left is a function of the set of keys.
  - `prune_prune`: leaves go, and then others, told by a mark that applies to them.
  - `Erased.trans`: one erasure behind another is the erasure of both.
  - `eraseKeys_erased`: the run over all keys, slot by slot.
  - `eraseKeys_exact`: which leaves stay, how many go, and that order and repetition make no difference.
-/

import InstitutionalGrammar.Proofs.Ownership.Linking

namespace InstitutionalGrammar

namespace Node

variable {α : Type} {n m : Node}

/-- Leaves that go because of a mark that applies to them, when others went before: that mark still applies. -/
theorem prune_prune {g : Marks → Option α} (hg : TakenOver g) (first : Path → Bool) (later : Option α → Bool)
    (above : Option α) (n : Node) :
    ((n.prune first).bind fun m => m.prune fun q => later (nearestFrom (fun k => g k.marks) above q m)) =
      n.prune fun q => first q || later (nearestFrom (fun k => g k.marks) above q n) := by
  induction n generalizing first above with
  | leaf e marks ps =>
    by_cases h : first [] = true
    · simp [prune, h]
    · simp only [prune, h, if_false, Option.bind_some, Bool.false_or, Bool.false_eq_true]
  | combination o l r marks ps ihl ihr =>
    have hmoved : ∀ k : Node,
        ((k.moveUp marks ps).prune fun q => later (nearestFrom (fun k => g k.marks) above q (k.moveUp marks ps))) =
          (k.prune fun q => later (nearestFrom (fun k => g k.marks) ((g marks).or above) q k)).map (moveUp marks ps) := by
      intro k
      simp only [nearestFrom_moveUp hg]
      exact prune_moveUp _ marks ps k
    have hboth : (combination o l r marks ps).prune (fun q => first q ||
          later (nearestFrom (fun k => g k.marks) above q (combination o l r marks ps))) =
        rejoin o marks ps
          ((l.prune fun q => first (.left :: q)).bind fun m => m.prune fun q =>
            later (nearestFrom (fun k => g k.marks) ((g marks).or above) q m))
          ((r.prune fun q => first (.right :: q)).bind fun m => m.prune fun q =>
            later (nearestFrom (fun k => g k.marks) ((g marks).or above) q m)) := by
      rw [ihl, ihr]
      rfl
    rw [hboth, prune]
    cases l.prune fun q => first (.left :: q) with
    | none =>
      rw [Option.bind_none, rejoin_none_left, rejoin_none_left]
      cases r.prune fun q => first (.right :: q) with
      | none => rfl
      | some k => exact hmoved k
    | some k =>
      cases r.prune fun q => first (.right :: q) with
      | none =>
        rw [Option.bind_none, rejoin_none_right, rejoin_none_right]
        exact hmoved k
      | some k' => rfl

/-- Where every suffix has a key, the keys that apply tell which leaves go. -/
theorem prune_prune_keyed (hn : n.Keyed) (first : Path → Bool) (later : Option Text → Bool) :
    ((n.prune first).bind fun m => m.prune fun q => later (m.keyAt? q)) =
      n.prune fun q => first q || later (n.keyAt? q) := by
  have hsuffix : ((n.prune first).bind fun m => m.prune fun q => later (m.keyAt? q)) =
      (n.prune first).bind fun m => m.prune fun q => later ((m.suffixAt? q).bind Suffix.key?) := by
    cases h : n.prune first with
    | none => rfl
    | some m => simp only [Option.bind_some, keyAt?_eq ((prune_pruned h).keyed hn)]
  simp only [hsuffix, keyAt?_eq hn]
  exact prune_prune takenOver_suffix first (fun suffix => later (suffix.bind Suffix.key?)) none n

theorem length_prune (gone : Path → Bool) (n : Node) :
    ((n.prune gone).elim 0 fun m => m.paths.length) + (n.paths.filter gone).length = n.paths.length := by
  cases h : n.prune gone with
  | none =>
    rw [List.filter_eq_self.2 (prune_eq_none_iff.1 h)]
    simp
  | some m =>
    have hlength := congrArg List.length (leafAt?_prune h)
    rw [List.length_map, List.length_map] at hlength
    rw [Option.elim_some, hlength, Nat.add_comm]
    exact (List.length_eq_length_filter_add gone).symm

end Node

namespace Statement

variable {s t u : Statement} {c property : Component} {kind : SlotKind} {keys : List (Component × Text)} {key : Text}
variable {a b : Slot → Option Text → Bool} {i j : Nat}

/-! ## One erasure -/

/-- The leaves of a slot that are told by the slot and the key that applies to them. -/
def toldIn (told : Slot → Option Text → Bool) (s : Statement) (slot : Slot) : List (Slot × Path) :=
  (s.get slot).elim [] fun n => (n.paths.filter fun q => told slot (n.keyAt? q)).map (slot, ·)

def leavesWith (told : Slot → Option Text → Bool) (s : Statement) : List (Slot × Path) := Slot.all.flatMap (s.toldIn told)

/-- Every slot lost the leaves that are told, and `count` is how many there were. -/
structure Erased (told : Slot → Option Text → Bool) (s t : Statement) (count : Nat) : Prop where
  slots : ∀ slot, t.get slot = (s.get slot).bind fun n => n.prune fun q => told slot (n.keyAt? q)
  count_eq : count = (s.leavesWith told).length

/-- What goes and what stays is what was there. -/
theorem length_leavesWith (h : ∀ slot, t.get slot = (s.get slot).bind fun n => n.prune fun q => a slot (n.keyAt? q)) :
    (t.leavesWith fun _ _ => true).length + (s.leavesWith a).length = (s.leavesWith fun _ _ => true).length := by
  have hslot : ∀ slot, (t.toldIn (fun _ _ => true) slot).length + (s.toldIn a slot).length =
      (s.toldIn (fun _ _ => true) slot).length := by
    intro slot
    unfold toldIn
    rw [h slot]
    cases s.get slot with
    | none => rfl
    | some n =>
      have hlength := n.length_prune fun q => a slot (n.keyAt? q)
      rw [Option.bind_some]
      cases hrest : n.prune fun q => a slot (n.keyAt? q) with
      | none => simpa [hrest] using hlength
      | some m => simpa [hrest] using hlength
  unfold leavesWith
  induction Slot.all with
  | nil => rfl
  | cons slot slots ih =>
    have hfirst := hslot slot
    simp only [List.flatMap_cons, List.length_append]
    omega

namespace Erased

theorem congr (h : Erased a s t i) (hab : ∀ slot key, a slot key = b slot key) : Erased b s t i := by
  have hsame : a = b := funext fun slot => funext fun key => hab slot key
  exact hsame ▸ h

theorem keyed (h : Erased a s t i) (hs : s.Keyed) : t.Keyed := by
  intro slot m hm
  rw [h.slots] at hm
  obtain ⟨n, hn, hprune⟩ := Option.bind_eq_some_iff.1 hm
  exact (Node.prune_pruned hprune).keyed (hs slot n hn)

theorem slot_untold {slot : Slot} (h : ∀ n, s.get slot = some n → ∀ key, a slot key = false) :
    s.get slot = (s.get slot).bind fun n => n.prune fun q => a slot (n.keyAt? q) := by
  cases hn : s.get slot with
  | none => rfl
  | some n => exact (Node.prune_nothing fun _ _ => h n hn _).symm

theorem toldIn_untold {slot : Slot} (h : ∀ n, s.get slot = some n → ∀ key, a slot key = false) : s.toldIn a slot = [] := by
  unfold toldIn
  cases hn : s.get slot with
  | none => rfl
  | some n => simp [h n hn]

/-- Where no leaf is told, nothing goes. -/
theorem untold (h : ∀ slot n, s.get slot = some n → ∀ key, a slot key = false) : Erased a s s 0 where
  slots := fun slot => slot_untold (h slot)
  count_eq := by
    rw [leavesWith, List.flatMap_eq_nil_iff.2 fun slot _ => toldIn_untold (h slot), List.length_nil]

/-- One erasure behind another is the erasure of both. -/
theorem trans (hs : s.Keyed) (h : Erased a s t i) (h' : Erased b t u j) :
    Erased (fun slot key => a slot key || b slot key) s u (i + j) := by
  have hslots : ∀ slot, u.get slot =
      (s.get slot).bind fun n => n.prune fun q => a slot (n.keyAt? q) || b slot (n.keyAt? q) := by
    intro slot
    rw [h'.slots, h.slots]
    cases hn : s.get slot with
    | none => rfl
    | some n =>
      rw [Option.bind_some, Option.bind_some]
      exact Node.prune_prune_keyed (hs slot n hn) (fun q => a slot (n.keyAt? q)) (b slot)
  refine ⟨hslots, ?_⟩
  have hfirst := length_leavesWith h.slots
  have hlater := length_leavesWith h'.slots
  have hboth := length_leavesWith (a := fun slot key => a slot key || b slot key) hslots
  rw [h.count_eq, h'.count_eq]
  omega

end Erased

/-! ## The runs -/

theorem eraseKey_eq {tree : Node} (htree : s.get? property kind = some tree) (key : Text) :
    eraseKey property key kind s = .ok
      (s.putSlot property kind (tree.prune fun q => sameKey (some key) (tree.keyAt? q)), (tree.sharing (some key)).length) := by
  have hrest := Node.removeAll_filter (fun q => sameKey (some key) (tree.keyAt? q)) tree
  rw [← Node.sharing, ← Node.sharing_some] at hrest
  rw [← Node.sharing_some, List.length_map]
  simp only [eraseKey, htree]
  generalize tree.keyedLeaves.filter (·.2 = key) = doomed at hrest
  cases doomed with
  | nil =>
    rw [List.map_nil, Node.removeAll] at hrest
    rw [← Except.ok.inj hrest, ← htree, putSlot_self]
    rfl
  | cons d ds =>
    simp only [hrest]
    rfl

/-- The leaves of one property slot with the key. -/
def inSlot (property : Component) (key : Text) (kind : SlotKind) (slot : Slot) (k : Option Text) : Bool :=
  (slot.component = property && slot.kind = kind) && sameKey (some key) k

theorem inSlot_other {slot : Slot} (h : ¬ (slot.component = property ∧ slot.kind = kind)) (k : Option Text) :
    inSlot property key kind slot k = false := by
  rw [inSlot, Bool.and_eq_false_iff]
  exact Or.inl (by simpa using h)

theorem eraseKey_erased (property : Component) (key : Text) (kind : SlotKind) (s : Statement) :
    ∃ t i, eraseKey property key kind s = .ok (t, i) ∧ Erased (inSlot property key kind) s t i := by
  cases htree : s.get? property kind with
  | none =>
    refine ⟨s, 0, by rw [eraseKey, htree], .untold fun slot n hn => inSlot_other fun hslot => ?_⟩
    rw [get_eq_get?, hslot.1, hslot.2, htree] at hn
    cases hn
  | some tree =>
    obtain ⟨slot, hof, hslot⟩ := Option.bind_eq_some_iff.1 htree
    obtain ⟨rfl, rfl⟩ := Slot.of?_eq_some_iff.1 hof
    have htold : ∀ k, inSlot slot.component key slot.kind slot k = sameKey (some key) k := fun k => by simp [inSlot]
    refine ⟨_, _, eraseKey_eq htree key, fun other => ?_, ?_⟩
    · by_cases hother : other.component = slot.component ∧ other.kind = slot.kind
      · obtain rfl : other = slot := by
          have hof' := Slot.of?_eq_some_iff.2 hother
          exact Option.some.inj (hof'.symm.trans hof)
        rw [get_eq_get?, get?_putSlot _ (by rw [htree]; rfl), hslot, Option.bind_some]
        simp only [htold]
      · rw [get_putSlot_ne _ hother]
        exact Erased.slot_untold fun _ _ => inSlot_other hother
    · rw [leavesWith, flatMap_only (a := slot) (by decide) slot.mem_all, toldIn, hslot, Option.elim_some, List.length_map]
      · simp only [htold]
        rfl
      · intro other _ hne
        refine Erased.toldIn_untold fun _ _ => inSlot_other fun hother => hne ?_
        exact Option.some.inj ((Slot.of?_eq_some_iff.2 hother).symm.trans hof)

/-- The leaves of both property slots with the key. -/
def ofProperty (property : Component) (key : Text) (slot : Slot) (k : Option Text) : Bool :=
  slot.component = property && sameKey (some key) k

theorem eraseBoth_erased (hs : s.Keyed) (property : Component) (key : Text) (n : Nat) :
    ∃ t i, (slotKinds.foldlM (fun (s, n) kind => do
        let (s, m) ← eraseKey property key kind s
        return (s, n + m)) (s, n) : Except ParseError (Statement × Nat)) = .ok (t, n + i) ∧
      Erased (ofProperty property key) s t i := by
  obtain ⟨t, i, ht, herased⟩ := eraseKey_erased property key .simple s
  obtain ⟨u, j, hu, herased'⟩ := eraseKey_erased property key .complex t
  refine ⟨u, i + j, ?_, (herased.trans hs herased').congr fun slot k => ?_⟩
  · simp only [slotKinds, List.foldlM_cons, List.foldlM_nil, ht, hu, ok_bind, pure_eq_ok, Nat.add_assoc]
  · unfold inSlot ofProperty
    cases slot.kind <;> simp

/-- Some pair lists the key for the component that `property` describes. -/
def listed (keys : List (Component × Text)) (property : Component) (key : Option Text) : Bool :=
  keys.any fun x => x.1.property? = some property && sameKey (some x.2) key

theorem listed_iff {k : Option Text} (hp : c.property? = some property) :
    listed keys property k = true ↔ ∃ key, k = some key ∧ (c, key) ∈ keys := by
  simp only [listed, List.any_eq_true, Bool.and_eq_true, decide_eq_true_eq, sameKey_iff]
  constructor
  · rintro ⟨⟨d, l⟩, hmem, hd, key, hl, hk⟩
    obtain rfl := Component.property?_inj hp hd
    exact ⟨key, hk, Option.some.inj hl ▸ hmem⟩
  · rintro ⟨key, hk, hmem⟩
    exact ⟨(c, key), hmem, hp, key, rfl, hk⟩

theorem listed_cons (first : Component × Text) (property : Component) (k : Option Text) :
    listed (first :: keys) property k =
      ((decide (first.1.property? = some property) && sameKey (some first.2) k) || listed keys property k) := rfl

/-- The run over all keys. -/
theorem eraseAll_erased (hs : s.Keyed) (keys : List (Component × Text)) (n : Nat) :
    ∃ t i, (keys.foldlM (fun (s, n) (c, key) => match c.property? with
        | none => .ok (s, n)
        | some property => slotKinds.foldlM (fun (s, n) kind => do
          let (s, m) ← eraseKey property key kind s
          return (s, n + m)) (s, n)) (s, n) : Except ParseError (Statement × Nat)) = .ok (t, n + i) ∧
      Erased (fun slot k => listed keys slot.component k) s t i := by
  induction keys generalizing s n with
  | nil => exact ⟨s, 0, rfl, .untold fun _ _ _ _ => rfl⟩
  | cons first keys ih =>
    obtain ⟨c, key⟩ := first
    rw [List.foldlM_cons]
    cases hp : c.property? with
    | none =>
      obtain ⟨t, i, ht, herased⟩ := ih hs n
      refine ⟨t, i, by simpa [hp] using ht, herased.congr fun slot k => ?_⟩
      simp [listed_cons, hp]
    | some property =>
      obtain ⟨t, i, ht, herased⟩ := eraseBoth_erased hs property key n
      obtain ⟨u, j, hu, herased'⟩ := ih (herased.keyed hs) (n + i)
      refine ⟨u, i + j, ?_, (herased.trans hs herased').congr fun slot k => ?_⟩
      · rw [← Nat.add_assoc]
        simp only [hp, ht]
        exact hu
      · simp [listed_cons, hp, ofProperty, eq_comm]

theorem eraseKeys_erased (hs : s.Keyed) (keys : List (Component × Text)) :
    ∃ t, s.eraseKeys keys = .ok (t, (s.leavesWith fun slot k => listed keys slot.component k).length) ∧
      ∀ slot, t.get slot = (s.get slot).bind fun n => n.prune fun q => listed keys slot.component (n.keyAt? q) := by
  obtain ⟨t, i, ht, herased⟩ := eraseAll_erased hs keys 0
  rw [Nat.zero_add, herased.count_eq] at ht
  exact ⟨t, ht, herased.slots⟩

/-! ## What stays -/

theorem get?_erased (h : ∀ slot, t.get slot = (s.get slot).bind fun n => n.prune fun q => listed keys slot.component (n.keyAt? q))
    (property : Component) (kind : SlotKind) :
    t.get? property kind = (s.get? property kind).bind fun n => n.prune fun q => listed keys property (n.keyAt? q) := by
  cases hof : Slot.of? property kind with
  | none => simp [get?, hof]
  | some slot => rw [get?_eq hof, get?_eq hof, h, (Slot.of?_eq_some_iff.1 hof).1]

theorem listed_foreign {slot : Slot} (h : ∀ c : Component, c.property? ≠ some slot.component) (k : Option Text) :
    listed keys slot.component k = false := by
  rw [listed, List.any_eq_false]
  intro x _
  simp [h]

theorem listed_eq (hp : c.property? = some property) (k : Option Text) :
    (!listed keys property k) = k.all fun key => (c, key) ∉ keys := by
  rw [Bool.eq_iff_iff, Bool.not_eq_true', ← Bool.not_eq_true, listed_iff hp]
  cases k <;> simp

theorem listed_congr {keys' : List (Component × Text)} (h : ∀ x, x ∈ keys' ↔ x ∈ keys) (property : Component)
    (k : Option Text) : listed keys' property k = listed keys property k := by
  rw [Bool.eq_iff_iff]
  simp only [listed, List.any_eq_true, h]

/-- Dropping keys is never refused. Of the property slots of a component, in either kind, those leaves stay whose
    key is not listed with the component, in their order and as they were; a slot is empty behind it if and only if
    it was, or if all its leaves have gone. No other slot changes, the count is that of the leaves that go, and a
    list of the same keys in another order, or with some of them repeated, does the same. -/
theorem eraseKeys_exact (hs : s.Keyed) (keys : List (Component × Text)) :
    ∃ t, s.eraseKeys keys = .ok (t, (s.leavesWith fun slot k => listed keys slot.component k).length) ∧
      (∀ c property : Component, c.property? = some property → ∀ kind,
        (s.get? property kind = none → t.get? property kind = none) ∧
        ∀ tree, s.get? property kind = some tree →
          (t.get? property kind = none ↔ ∀ q ∈ tree.paths, ∃ key, tree.keyAt? q = some key ∧ (c, key) ∈ keys) ∧
          ∀ rest, t.get? property kind = some rest → rest.paths.map (rest.leafAt? ·) =
            (tree.paths.filter fun q => (tree.keyAt? q).all fun key => (c, key) ∉ keys).map (tree.leafAt? ·)) ∧
      (∀ slot : Slot, (∀ c : Component, c.property? ≠ some slot.component) → t.get slot = s.get slot) ∧
      ∀ keys', (∀ x, x ∈ keys' ↔ x ∈ keys) → s.eraseKeys keys' = s.eraseKeys keys := by
  obtain ⟨t, ht, hslots⟩ := eraseKeys_erased hs keys
  refine ⟨t, ht, fun c property hp kind => ?_, fun slot hslot => ?_, fun keys' hsame => ?_⟩
  · have hget := get?_erased hslots property kind
    refine ⟨fun hnone => by rw [hget, hnone]; rfl, fun tree htree => ?_⟩
    rw [htree, Option.bind_some] at hget
    refine ⟨by simp only [hget, Node.prune_eq_none_iff, listed_iff hp], fun rest hrest => ?_⟩
    rw [Node.leafAt?_prune (hget.symm.trans hrest)]
    simp only [listed_eq hp]
  · rw [hslots]
    exact (Erased.slot_untold (a := fun slot k => listed keys slot.component k) fun _ _ => listed_foreign hslot).symm
  · obtain ⟨t', ht', hslots'⟩ := eraseKeys_erased hs keys'
    have hlisted : (fun (slot : Slot) k => listed keys' slot.component k) = fun slot k => listed keys slot.component k :=
      funext fun slot => funext fun k => listed_congr hsame slot.component k
    obtain rfl : t' = t := ext_get fun slot => by simp only [hslots, hslots', listed_congr hsame]
    rw [ht, ht', hlisted]

/-- The properties of two officers, of which two are listed with the first officer's key, and an object's. -/
def officers : Statement :=
  (Statement.empty.put (.simple .attributesProperty) (some (.combination .or
    (.leaf (.text "certified".toList) { suffix := some ['1'] } [])
    (.combination .and (.text "trained".toList) (.leaf (.text "senior".toList) { suffix := some ['3'] } [])
      { suffix := some "1,2".toList } [])
    { component := some .attributesProperty } []))).put
  (.simple .directObjectProperty) (some (.leaf (.text "sealed".toList) { suffix := some ['1'] } []))

theorem eraseKeys_exact_officers : officers.Keyed ∧ ∃ t,
    officers.eraseKeys [(.attributes, ['1']), (.deontic, ['3']), (.attributes, ['1'])] = .ok (t, 2) ∧
    officers.eraseKeys [(.deontic, ['3']), (.attributes, ['1'])] = .ok (t, 2) ∧
    (∃ rest, t.get? .attributesProperty .simple = some rest ∧ rest.paths.map (rest.leafAt? ·) =
      [some ⟨.text "senior".toList, some .attributesProperty, some ['3']⟩]) ∧
    t.get? .directObjectProperty .simple ≠ none := by
  have hkeyed : officers.Keyed := by
    intro slot n hn
    simp only [officers, get_put, get_empty] at hn
    split at hn
    · cases hn
      rintro t ⟨⟩
      decide
    · split at hn
      · cases hn
        refine ⟨nofun, ?_, ⟨?_, nofun, ?_⟩⟩
        all_goals
          rintro t ⟨⟩
          decide
      · cases hn
  obtain ⟨t, ht, hproperties, -, hsame⟩ :=
    eraseKeys_exact hkeyed [(.attributes, ['1']), (.deontic, ['3']), (.attributes, ['1'])]
  obtain ⟨-, hkept⟩ := hproperties .attributes .attributesProperty rfl .simple
  obtain ⟨hempty, hrest⟩ := hkept _ rfl
  obtain ⟨-, hobject⟩ := hproperties .directObject .directObjectProperty rfl .simple
  have hcount : (officers.leavesWith fun slot k =>
      listed [(.attributes, ['1']), (.deontic, ['3']), (.attributes, ['1'])] slot.component k).length = 2 := by decide
  rw [hcount] at ht
  refine ⟨hkeyed, t, ht, ?_, ?_, fun hnone => ?_⟩
  · rw [hsame _ fun x => by simp; tauto, ht]
  · cases hget : t.get? .attributesProperty .simple with
    | none =>
      obtain ⟨key, hkey, hlisted⟩ := hempty.1 hget [.right, .right] (by decide)
      obtain rfl : key = ['3'] := (Option.some.inj hkey).symm
      exact absurd hlisted (by decide)
    | some rest => exact ⟨rest, rfl, (hrest rest hget).trans rfl⟩
  · obtain ⟨key, hkey, hlisted⟩ := (hobject _ rfl).1.1 hnone [] (by decide)
    obtain rfl : key = ['1'] := (Option.some.inj hkey).symm
    exact absurd hlisted (by decide)

end Statement

end InstitutionalGrammar
