/-
  InstitutionalGrammar.Proofs.Ownership.Transfer — what a linking pass moves, leaf by leaf.

  Links are addresses into trees that change while the links are still to be followed. Owner trees grow at
  their leaves only, so their addresses stay; the property tree loses all linked leaves as one set.
  - `links_eq`: the links are the pairs of leaves with the same key, no more and no fewer.
  - `flatMap_copies`: of all pairs an owner gets the copies of its own.
  - `removeAll_links`: the property tree loses the leaves with owners.
  - `link_transfer`: a pass does so for every component, and none is in the way of another.
-/

import InstitutionalGrammar.Proofs.Ownership.Slots
import InstitutionalGrammar.Proofs.Ownership.Growth
import InstitutionalGrammar.Proofs.Removal.Order

namespace InstitutionalGrammar

/-! ## Lists without repetitions -/

theorem nodup_eraseDups {α : Type} [BEq α] [LawfulBEq α] (l : List α) : l.eraseDups.Nodup := by
  induction hlen : l.length using Nat.strongRecOn generalizing l with
  | ind k ih =>
    cases l with
    | nil => simp
    | cons a l =>
      have hle := List.length_filter_le (fun b => !b == a) l
      rw [List.eraseDups_cons, List.nodup_cons, List.mem_eraseDups, List.mem_filter]
      refine ⟨by simp, ih _ ?_ _ rfl⟩
      simp only [List.length_cons] at hlen
      omega

/-- Only one element of a list contributes. -/
theorem flatMap_only {α β : Type} {f : α → List β} {l : List α} {a : α} (hl : l.Nodup) (ha : a ∈ l)
    (hf : ∀ b ∈ l, b ≠ a → f b = []) : l.flatMap f = f a := by
  obtain ⟨xs, ys, rfl⟩ := List.append_of_mem ha
  have hne := List.nodup_middle.1 hl
  have hother : ∀ b ∈ xs ++ ys, f b = [] := fun b hb =>
    hf b (by grind) fun e => (List.nodup_cons.1 hne).1 (e ▸ hb)
  rw [List.flatMap_append, List.flatMap_cons, List.flatMap_eq_nil_iff.2 fun b hb => hother b (by simp [hb]),
    List.flatMap_eq_nil_iff.2 fun b hb => hother b (by simp [hb])]
  simp

/-! ## Leaves with the same key -/

/-- Both have a key, and it is the same. -/
def sameKey : Option Text → Option Text → Bool
  | some a, some b => a = b
  | _, _ => false

theorem sameKey_iff {a b : Option Text} : sameKey a b = true ↔ ∃ key, a = some key ∧ b = some key := by
  cases a <;> cases b <;> simp [sameKey, eq_comm]

namespace Node

variable {n tree : Node} {path q : Path} {key : Option Text}

/-- The leaves with that key. -/
def sharing (key : Option Text) (n : Node) : List Path := n.paths.filter fun q => sameKey key (n.keyAt? q)

/-- The leaves of a property slot with that key, each as it stands alone. -/
def copies (tree : Option Node) (key : Option Text) : List Node :=
  tree.elim [] fun t => (t.sharing key).filterMap (t.standalone? ·)

/-- A leaf in one of these slots has that key. -/
def ownedBy (owners : SlotKind → Option Node) (key : Option Text) : Bool :=
  Statement.slotKinds.any fun kind => (owners kind).any fun n => n.paths.any fun p => sameKey (n.keyAt? p) key

/-- The leaves of owners and of a property slot that have the same key, pair by pair. -/
def matching (owners : SlotKind → Option Node) (tree : Option Node) : List (SlotKind × Path × Path) :=
  Statement.slotKinds.flatMap fun kind => (owners kind).elim [] fun n => tree.elim [] fun t =>
    n.paths.flatMap fun p => (t.sharing (n.keyAt? p)).map fun q => (kind, p, q)

theorem flatMap_keyedLeaves {α : Type} (f : Path → Text → List α) (n : Node) :
    (n.keyedLeaves.flatMap fun x => f x.1 x.2) = n.paths.flatMap fun p => (n.keyAt? p).elim [] (f p) := by
  unfold keyedLeaves
  induction n.paths with
  | nil => rfl
  | cons p ps ih =>
    cases hkey : n.keyAt? p with
    | none => simpa [hkey] using ih
    | some key => simpa [hkey] using ih

theorem sharing_some (key : Text) (n : Node) :
    (n.keyedLeaves.filter (·.2 = key)).map Prod.fst = n.sharing (some key) := by
  unfold keyedLeaves sharing
  induction n.paths with
  | nil => rfl
  | cons p ps ih =>
    cases hkey : n.keyAt? p with
    | none => simpa [hkey, sameKey] using ih
    | some k =>
      by_cases hk : k = key
      · simpa [hkey, hk, sameKey] using ih
      · simpa [hkey, hk, Ne.symm hk, sameKey, eq_comm] using ih

theorem sharing_none (n : Node) : n.sharing none = [] := by simp [sharing, sameKey]

end Node

namespace Statement

theorem links_eq (c : Component) (tree : Node) (s : Statement) :
    links c tree.keyedLeaves s = (Node.matching (s.get? c) (some tree)).map fun x => ⟨x.1, x.2.1, x.2.2⟩ := by
  unfold links Node.matching
  rw [List.map_flatMap]
  refine List.flatMap_congr fun kind _ => ?_
  cases s.get? c kind with
  | none => rfl
  | some n =>
    simp only [Option.elim_some, List.map_flatMap, List.map_map]
    rw [Node.flatMap_keyedLeaves fun owner key =>
      (tree.keyedLeaves.filter (·.2 = key)).map fun property => Link.mk kind owner property.1]
    refine List.flatMap_congr fun p _ => ?_
    cases n.keyAt? p with
    | none => rw [Node.sharing_none]; rfl
    | some key =>
      rw [← Node.sharing_some, List.map_map]
      rfl

/-! ## One link -/

/-- The private node that a link brings to the leaf of that kind at `path`. -/
def Link.copy (tree : Node) (kind : SlotKind) (path : Path) (link : Link) : List Node :=
  if link.kind = kind ∧ path = link.owner then (tree.standalone? link.property).toList else []

variable {s : Statement} {c property : Component} {kind : SlotKind}

theorem get?_attach (tree : Node) {link : Link} (h : ∀ n ∈ s.get? c link.kind, link.owner ∈ n.paths)
    (kind : SlotKind) :
    (attach c tree s link).get? c kind = (s.get? c kind).map (Node.grow fun path => link.copy tree kind path) := by
  have hsame : ∀ {tree' : Option Node}, (∀ path, link.copy tree kind path = []) →
      tree' = tree'.map (Node.grow fun path => link.copy tree kind path) := by
    intro tree' hcopy
    cases tree' with
    | none => rfl
    | some n => simp [hcopy, Node.grow_nil]
  unfold attach
  cases hcopy : tree.standalone? link.property with
  | none => exact hsame fun path => by simp [Link.copy, hcopy]
  | some v =>
    by_cases hkind : link.kind = kind
    · obtain rfl := hkind
      simp only [get?_modifySlot_self]
      cases hn : s.get? c link.kind with
      | none => rfl
      | some n =>
        refine congrArg some ((Node.modify_privates (h n hn) v).trans ?_)
        simp [Link.copy, hcopy]
    · simp only [get?_modifySlot_ne _ fun e : c = c ∧ kind = link.kind => hkind e.2.symm]
      exact hsame fun path => by simp [Link.copy, hkind]

/-- A run over links with leaves of `c` brings every leaf the copies of its links. -/
theorem get?_attachAll (tree : Node) {ls : List Link} (h : ∀ link ∈ ls, ∀ n ∈ s.get? c link.kind, link.owner ∈ n.paths)
    (kind : SlotKind) :
    (ls.foldl (attach c tree) s).get? c kind =
      (s.get? c kind).map (Node.grow fun path => ls.flatMap fun link => link.copy tree kind path) := by
  induction ls generalizing s with
  | nil =>
    cases hn : s.get? c kind with
    | none => simp [hn]
    | some n => simp [hn, Node.grow_nil]
  | cons link ls ih =>
    have hattach := fun k => get?_attach (s := s) tree (h link (by simp)) k
    rw [List.foldl_cons, ih, hattach kind, Option.map_map]
    · refine congrArg (Option.map · _) (funext fun n => ?_)
      rw [Function.comp_apply, Node.grow_grow]
      rfl
    · intro l hl n hn
      rw [hattach] at hn
      obtain ⟨m, hm, rfl⟩ := Option.map_eq_some_iff.1 hn
      rw [Node.paths_grow]
      exact h l (by simp [hl]) m hm

/-- It touches no other slot. -/
theorem get_attachAll (tree : Node) (ls : List Link) {slot : Slot} (h : slot.component ≠ c) :
    (ls.foldl (attach c tree) s).get slot = s.get slot := by
  induction ls generalizing s with
  | nil => rfl
  | cons link ls ih =>
    rw [List.foldl_cons, ih]
    unfold attach
    split
    · rfl
    · exact get_modifySlot_ne _ fun e => h e.1

end Statement

/-! ## One property slot -/

namespace Node

variable {owners : SlotKind → Option Node} {n tree : Node} {kind : SlotKind} {p q : Path} {key : Option Text}

theorem grow_congr {f g : Path → List Node} (h : ∀ p ∈ n.paths, f p = g p) : n.grow f = n.grow g := by
  induction n generalizing f g with
  | leaf e marks ps => rw [grow, grow, h [] (List.mem_singleton_self _)]
  | combination o l r marks ps ihl ihr =>
    rw [grow, grow, ihl fun q hq => h _ (mem_paths_left.2 hq), ihr fun q hq => h _ (mem_paths_right.2 hq)]

theorem mem_sharing : q ∈ tree.sharing key ↔ q ∈ tree.paths ∧ sameKey key (tree.keyAt? q) = true := List.mem_filter

theorem mem_slotKinds (kind : SlotKind) : kind ∈ Statement.slotKinds := by cases kind <;> decide

theorem matching_none (owners : SlotKind → Option Node) : matching owners none = [] := by
  unfold matching
  rw [List.flatMap_eq_nil_iff]
  intro kind _
  cases owners kind <;> rfl

theorem mem_matching : (kind, p, q) ∈ matching owners (some tree) ↔
    ∃ n, owners kind = some n ∧ p ∈ n.paths ∧ q ∈ tree.sharing (n.keyAt? p) := by
  unfold matching
  rw [List.mem_flatMap]
  constructor
  · rintro ⟨k, -, h⟩
    cases hn : owners k with
    | none => simp [hn] at h
    | some n =>
      rw [hn, Option.elim_some, Option.elim_some, List.mem_flatMap] at h
      obtain ⟨x, hx, h⟩ := h
      obtain ⟨y, hy, he⟩ := List.mem_map.1 h
      cases he
      exact ⟨n, hn, hx, hy⟩
  · rintro ⟨n, hn, hp, hq⟩
    refine ⟨kind, mem_slotKinds kind, ?_⟩
    rw [hn, Option.elim_some, Option.elim_some, List.mem_flatMap]
    exact ⟨p, hp, List.mem_map_of_mem hq⟩

theorem ownedBy_iff : ownedBy owners key = true ↔
    ∃ kind n, owners kind = some n ∧ ∃ p ∈ n.paths, sameKey (n.keyAt? p) key = true := by
  simp only [ownedBy, List.any_eq_true, Option.any_eq_true, mem_slotKinds, true_and]

/-- An owner gets the copies of its own matches, whatever the other pairs are. -/
theorem flatMap_copies (hn : owners kind = some n) (hp : p ∈ n.paths) :
    (matching owners (some tree)).flatMap (fun x => Statement.Link.copy tree kind p ⟨x.1, x.2.1, x.2.2⟩) =
      copies (some tree) (n.keyAt? p) := by
  unfold matching
  rw [List.flatMap_assoc, flatMap_only (a := kind) (by decide) (mem_slotKinds kind)]
  · rw [hn, Option.elim_some, Option.elim_some, List.flatMap_assoc, flatMap_only (a := p) n.nodup_paths hp]
    · rw [List.flatMap_map, copies, Option.elim_some, List.filterMap_eq_flatMap_toList]
      simp [Statement.Link.copy]
    · intro p' _ hne
      rw [List.flatMap_map, List.flatMap_eq_nil_iff]
      intro q _
      simp [Statement.Link.copy, hne.symm]
  · intro k _ hne
    cases owners k with
    | none => rfl
    | some m => simp [List.flatMap_assoc, List.flatMap_map, Statement.Link.copy, hne]

/-- Every leaf of `tree` with the key of an owner moved from it to all leaves with that key. -/
structure Transfer (owners : SlotKind → Option Node) (tree : Option Node) (owners' : SlotKind → Option Node)
    (rest : Option Node) : Prop where
  grown : ∀ kind, owners' kind = (owners kind).map fun n => n.grow fun path => copies tree (n.keyAt? path)
  kept : rest = tree.bind fun t => t.prune fun q => ownedBy owners (t.keyAt? q)

end Node

namespace Statement

variable {s : Statement} {c property : Component} {kind : SlotKind}

theorem mem_links {tree : Node} {link : Link} : link ∈ links c tree.keyedLeaves s ↔
    ∃ n, s.get? c link.kind = some n ∧ link.owner ∈ n.paths ∧ link.property ∈ tree.sharing (n.keyAt? link.owner) := by
  rw [links_eq, List.mem_map, ← Node.mem_matching]
  constructor
  · rintro ⟨x, hx, rfl⟩
    exact hx
  · exact fun h => ⟨_, h, rfl⟩

/-- The leaves that the links take out of the property tree. -/
theorem removeAll_links (c : Component) (s : Statement) (tree : Node) :
    tree.removeAll ((links c tree.keyedLeaves s).map Link.property).eraseDups =
      .ok (tree.prune fun q => Node.ownedBy (s.get? c) (tree.keyAt? q)) := by
  have hmem : ∀ {q}, q ∈ ((links c tree.keyedLeaves s).map Link.property).eraseDups ↔
      q ∈ tree.paths ∧ Node.ownedBy (s.get? c) (tree.keyAt? q) = true := by
    intro q
    rw [List.mem_eraseDups, List.mem_map, Node.ownedBy_iff]
    constructor
    · rintro ⟨link, hlink, rfl⟩
      obtain ⟨n, hn, hp, hq⟩ := mem_links.1 hlink
      obtain ⟨hq, hsame⟩ := Node.mem_sharing.1 hq
      exact ⟨hq, link.kind, n, hn, link.owner, hp, hsame⟩
    · rintro ⟨hq, kind, n, hn, p, hp, hsame⟩
      exact ⟨⟨kind, p, q⟩, mem_links.2 ⟨n, hn, hp, Node.mem_sharing.2 ⟨hq, hsame⟩⟩, rfl⟩
  rw [Node.removeAll_run (fun q hq => (hmem.1 hq).1) (nodup_eraseDups _)]
  refine congrArg _ (Node.prune_congr fun q hq => ?_)
  rw [Bool.eq_iff_iff, decide_eq_true_iff, hmem, and_iff_right hq]

/-- What linking computes where there is a property tree. -/
theorem linkProperty_eq {tree : Node} (htree : s.get? property kind = some tree) : linkProperty c property kind s = .ok
    (((links c tree.keyedLeaves s).foldl (attach c tree) s).putSlot property kind
      (tree.prune fun q => Node.ownedBy (s.get? c) (tree.keyAt? q)), (Node.matching (s.get? c) (some tree)).length) := by
  have hlength : (Node.matching (s.get? c) (some tree)).length = (links c tree.keyedLeaves s).length := by
    rw [links_eq, List.length_map]
  have hrest := removeAll_links c s tree
  rw [hlength]
  simp only [linkProperty, htree]
  generalize links c tree.keyedLeaves s = ls at hrest
  cases ls with
  | nil =>
    rw [List.map_nil, List.eraseDups_nil, Node.removeAll] at hrest
    rw [← Except.ok.inj hrest, List.foldl_nil, ← htree, putSlot_self]
    rfl
  | cons l ls =>
    simp only [hrest]
    rfl

/-- One property slot linked: its leaves with owners move, and no other slot changes. -/
theorem linkProperty_transfer (s : Statement) (hne : property ≠ c) (kind : SlotKind) : ∃ t,
    linkProperty c property kind s = .ok (t, (Node.matching (s.get? c) (s.get? property kind)).length) ∧
    Node.Transfer (s.get? c) (s.get? property kind) (t.get? c) (t.get? property kind) ∧
    ∀ slot : Slot, slot.component ≠ c → ¬ (slot.component = property ∧ slot.kind = kind) →
      t.get slot = s.get slot := by
  cases htree : s.get? property kind with
  | none =>
    refine ⟨s, by rw [linkProperty, htree, Node.matching_none]; rfl, ⟨fun k => ?_, htree⟩, fun _ _ _ => rfl⟩
    cases s.get? c k with
    | none => rfl
    | some n => simp [Node.copies, Node.grow_nil]
  | some tree =>
    have hpaths : ∀ link ∈ links c tree.keyedLeaves s, ∀ n ∈ s.get? c link.kind, link.owner ∈ n.paths := by
      intro link hl n hn
      obtain ⟨m, hm, hp, -⟩ := mem_links.1 hl
      obtain rfl := Option.some.inj (hm.symm.trans hn)
      exact hp
    have hpop : (((links c tree.keyedLeaves s).foldl (attach c tree) s).get? property kind).isSome := by
      rw [get?_frame fun slot hslot _ => get_attachAll tree _ (hslot ▸ hne), htree]
      rfl
    refine ⟨_, linkProperty_eq htree, ⟨fun k => ?_, by rw [get?_putSlot _ hpop]; rfl⟩, ?_⟩
    · rw [get?_putSlot_ne _ fun e => hne e.1.symm, get?_attachAll tree hpaths, links_eq]
      cases hn : s.get? c k with
      | none => rfl
      | some n =>
        refine congrArg some (Node.grow_congr fun p hp => ?_)
        rw [List.flatMap_map]
        exact Node.flatMap_copies hn hp
    · intro slot hslot hother
      rw [get_putSlot_ne _ hother]
      exact get_attachAll tree _ hslot

/-! ## All components -/

/-- The leaves of a component and of its property in the slot of that kind that have the same key. -/
def matching (kind : SlotKind) (s : Statement) (c : Component) : List (SlotKind × Path × Path) :=
  c.property?.elim [] fun property => Node.matching (s.get? c) (s.get? property kind)

/-- Only slots of these components and of their properties of that kind change. -/
def Within (cs : List Component) (kind : SlotKind) (s t : Statement) : Prop :=
  ∀ slot : Slot, (∀ c ∈ cs, ∀ property, c.property? = some property →
    slot.component ≠ c ∧ ¬ (slot.component = property ∧ slot.kind = kind)) → t.get slot = s.get slot

/-- No component is in the way of another, as none is a property of two or of a property. -/
theorem Within.others {cs : List Component} {t : Statement} (h : Within cs kind s t) (hc : c ∉ cs)
    (hp : c.property? = some property) : t.get? c = s.get? c ∧ t.get? property kind = s.get? property kind := by
  constructor
  · refine funext fun k => get?_frame fun slot hslot _ => h slot fun d hd q hq => ⟨?_, ?_⟩
    · rintro rfl
      exact hc (hslot ▸ hd)
    · exact fun e => Component.property?_chain hq hp (e.1.symm.trans hslot)
  · refine get?_frame fun slot hslot _ => h slot fun d hd q hq => ⟨?_, ?_⟩
    · exact fun e => Component.property?_chain hp hq (hslot.symm.trans e)
    · exact fun e => hc (Component.property?_inj hp (e.1.symm.trans hslot ▸ hq) ▸ hd)

theorem Within.matching_eq {cs : List Component} {t : Statement} (h : Within [c] kind s t) (hc : c ∉ cs) :
    cs.flatMap (t.matching kind) = cs.flatMap (s.matching kind) := by
  refine List.flatMap_congr fun d hd => ?_
  unfold matching
  cases hp : d.property? with
  | none => rfl
  | some property =>
    obtain ⟨hown, hproperty⟩ := h.others (fun e => hc (List.mem_singleton.1 e ▸ hd)) hp
    rw [Option.elim_some, Option.elim_some, hown, hproperty]

/-- One component linked with its property, if it has one. -/
theorem linkComponent_transfer (s : Statement) (n : Nat) (kind : SlotKind) (c : Component) : ∃ t,
    (match c.property? with
      | none => .ok (s, n)
      | some property => do
        let (s, m) ← linkProperty c property kind s
        return (s, n + m) : Except ParseError (Statement × Nat)) = .ok (t, n + (s.matching kind c).length) ∧
    (∀ property, c.property? = some property →
      Node.Transfer (s.get? c) (s.get? property kind) (t.get? c) (t.get? property kind)) ∧
    Within [c] kind s t := by
  unfold matching
  cases hp : c.property? with
  | none => exact ⟨s, rfl, nofun, fun _ _ => rfl⟩
  | some property =>
    obtain ⟨t, hlink, hmoved, hframe⟩ := linkProperty_transfer s (Component.property?_ne hp) kind
    refine ⟨t, by simp only [hlink]; rfl, ?_, fun slot hslot => ?_⟩
    · rintro _ ⟨⟩
      exact hmoved
    · obtain ⟨hown, hproperty⟩ := hslot c List.mem_cons_self property hp
      exact hframe slot hown hproperty

theorem linkAll_transfer {cs : List Component} (hcs : cs.Nodup) (s : Statement) (n : Nat) (kind : SlotKind) : ∃ t,
    (cs.foldlM (fun (s, n) c => match c.property? with
      | none => .ok (s, n)
      | some property => do
        let (s, m) ← linkProperty c property kind s
        return (s, n + m)) (s, n) : Except ParseError (Statement × Nat)) =
      .ok (t, n + (cs.flatMap (s.matching kind)).length) ∧
    (∀ c ∈ cs, ∀ property, c.property? = some property →
      Node.Transfer (s.get? c) (s.get? property kind) (t.get? c) (t.get? property kind)) ∧
    Within cs kind s t := by
  induction cs generalizing s n with
  | nil => exact ⟨s, rfl, nofun, fun _ _ => rfl⟩
  | cons c cs ih =>
    obtain ⟨hc, hcs⟩ := List.nodup_cons.1 hcs
    obtain ⟨s₁, hlink, hmoved₁, hstep⟩ := linkComponent_transfer s n kind c
    obtain ⟨t, ht, hmoved, hframe⟩ := ih hcs s₁ (n + (s.matching kind c).length)
    refine ⟨t, ?_, List.forall_mem_cons.2 ⟨fun property hp => ?_, fun d hd property hp => ?_⟩, fun slot hslot => ?_⟩
    · rw [hstep.matching_eq hc] at ht
      rw [List.foldlM_cons, List.flatMap_cons, List.length_append, ← Nat.add_assoc, ← ht]
      simp only [hlink, ok_bind]
    · -- the later components leave its slots as they are
      obtain ⟨hown, hproperty⟩ := hframe.others hc hp
      rw [hown, hproperty]
      exact hmoved₁ property hp
    · -- and it has left theirs
      obtain ⟨hown, hproperty⟩ := hstep.others (fun e => hc (List.mem_singleton.1 e ▸ hd)) hp
      rw [← hown, ← hproperty]
      exact hmoved d hd property hp
    · rw [hframe slot fun d hd => hslot d (List.mem_cons_of_mem _ hd)]
      exact hstep slot fun d hd => hslot d (List.mem_singleton.1 hd ▸ List.mem_cons_self)

/-- What a pass over all components does to the slots. -/
structure Transferred (kind : SlotKind) (s t : Statement) : Prop where
  moved : ∀ c property : Component, c.property? = some property →
    Node.Transfer (s.get? c) (s.get? property kind) (t.get? c) (t.get? property kind)
  frame : ∀ slot : Slot, slot.component.property? = none →
    (∀ c : Component, c.property? = some slot.component → slot.kind ≠ kind) → t.get slot = s.get slot

theorem link_transfer (kind : SlotKind) (s : Statement) :
    ∃ t, s.link kind = .ok (t, (Component.all.flatMap (s.matching kind)).length) ∧ Transferred kind s t := by
  obtain ⟨t, ht, hmoved, hframe⟩ := linkAll_transfer (show Component.all.Nodup by decide) s 0 kind
  rw [Nat.zero_add] at ht
  refine ⟨t, ht, fun c property h => hmoved c c.mem_all property h, ?_⟩
  intro slot hslot hkind
  refine hframe slot fun c _ property h => ⟨fun e => ?_, fun e => ?_⟩
  · rw [e, h] at hslot
    cases hslot
  · exact hkind c (e.1 ▸ h) e.2

end Statement

end InstitutionalGrammar
