/-
  InstitutionalGrammar.Proofs.Reading.Trees — the trees that reading builds.

  - `Node.Built`: leaves of one sort, suffixes with keys and no private nodes.
  - `Mapped`: what replacing the leaves of a tree does to it.
-/

import InstitutionalGrammar.ComponentTree
import InstitutionalGrammar.Proofs.Ownership.Growth

namespace InstitutionalGrammar

/-- What every step of a run keeps holds behind it. -/
theorem foldlM_keeps {α β ε : Type} {f : β → α → Except ε β} {P : β → Prop} {l : List α}
    (hstep : ∀ a ∈ l, ∀ b c, P b → f b a = .ok c → P c) {b c : β} (hb : P b) (h : l.foldlM f b = .ok c) : P c := by
  induction l generalizing b with
  | nil =>
    cases h
    exact hb
  | cons a l ih =>
    rw [List.foldlM_cons] at h
    obtain ⟨d, hd, h⟩ := bind_eq_ok.1 h
    exact ih (fun x hx => hstep x (by simp [hx])) (hstep a (by simp) b d hb hd) h

namespace Node

/-- The leaves hold such entries, every suffix has a key, and there are no private nodes. -/
def Built (L : Entry → Prop) : Node → Prop
  | leaf e m p => L e ∧ KeyedSuffix m.suffix ∧ p = []
  | combination _ l r m p => l.Built L ∧ r.Built L ∧ KeyedSuffix m.suffix ∧ p = []

/-- Coded text. -/
def Coding (e : Entry) : Prop := ∃ v, e = .text v

variable {L : Entry → Prop} {n m : Node}

namespace Built

theorem keyed (h : n.Built L) : n.Keyed := by
  induction n with
  | leaf => exact h.2.1
  | combination o l r m p ihl ihr => exact ⟨h.2.2.1, ihl h.1, ihr h.2.1⟩

theorem bare (h : n.Built L) : n.Bare := by
  induction n with
  | leaf => exact h.2.2
  | combination o l r m p ihl ihr => exact ⟨h.2.2.2, ihl h.1, ihr h.2.1⟩

theorem get? (h : n.Built L) {path : Path} {e : Entry} {marks : Marks} {privates : List Node}
    (hget : n.get? path = some (leaf e marks privates)) : L e := by
  induction path generalizing n with
  | nil =>
    rw [get?_nil] at hget
    cases hget
    exact h.1
  | cons s path ih =>
    cases n with
    | leaf => cases s <;> cases hget
    | combination o l r ms p =>
      cases s
      · exact ih h.1 hget
      · exact ih h.2.1 hget

theorem statements (h : n.Built L) {u : Statement} (hu : u ∈ n.statements) : ∃ e, L e ∧ u ∈ e.statements := by
  induction n with
  | leaf e m p =>
    rw [Node.statements, h.2.2, statementsAll, List.append_nil] at hu
    exact ⟨e, h.1, hu⟩
  | combination o l r m p ihl ihr =>
    rw [Node.statements, h.2.2.2, statementsAll, List.append_nil, List.mem_append] at hu
    rcases hu with hu | hu
    · exact ihl h.1 hu
    · exact ihr h.2.1 hu

/-- The statements that stand at the leaves. -/
theorem leaf (h : n.Built L) {s : Statement} (hs : s ∈ n.leaves.filterMap statement?) : L (.nested s) := by
  induction n with
  | leaf e m p =>
    cases e <;> simp [leaves, statement?] at hs
    exact hs ▸ h.1
  | combination o l r m p ihl ihr =>
    rw [leaves, List.filterMap_append, List.mem_append] at hs
    rcases hs with hs | hs
    · exact ihl h.1 hs
    · exact ihr h.2.1 hs

theorem mono {L' : Entry → Prop} (h : n.Built L) (hL : ∀ e, L e → L' e) : n.Built L' := by
  induction n with
  | leaf => exact ⟨hL _ h.1, h.2⟩
  | combination o l r m p ihl ihr => exact ⟨ihl h.1, ihr h.2.1, h.2.2⟩

theorem withMarks (h : n.Built L) {marks : Marks} (hm : KeyedSuffix marks.suffix) : (n.withMarks marks).Built L := by
  cases n with
  | leaf => exact ⟨h.1, hm, h.2.2⟩
  | combination => exact ⟨h.1, h.2.1, hm, h.2.2.2⟩

theorem suffix (h : n.Built L) : KeyedSuffix n.marks.suffix := by
  cases n with
  | leaf => exact h.2.1
  | combination => exact h.2.2.1

theorem withComponent (h : n.Built L) (c : Component) : (n.withComponent c).Built L := h.withMarks h.suffix

theorem label (h : n.Built L) (c : Component) {suffix : Option Text} (hs : KeyedSuffix suffix) (remark : Option Text) :
    (n.label c suffix remark).Built L :=
  h.withMarks hs

theorem combine {o : Operator} {l r : Node} (hl : l.Built L) (hr : r.Built L) (h : Node.combine o l r = .ok n) :
    n.Built L := by
  unfold Node.combine at h
  split at h
  · split at h
    · cases h
      exact ⟨hl, hr, nofun, rfl⟩
    · cases h
  · cases h
    exact ⟨hl, hr, nofun, rfl⟩
  · cases h
    exact ⟨hl, hr, nofun, rfl⟩

theorem fold? {o : Operator} {ns : List Node} (hns : ∀ x ∈ ns, x.Built L) (h : Node.fold? o ns = .ok (some n)) :
    n.Built L := by
  cases ns with
  | nil => cases h
  | cons x xs =>
    obtain ⟨m, hm, he⟩ := bind_eq_ok.1 ((map_eq_pure_bind some _).symm.trans h)
    cases he
    refine foldlM_keeps (P := Node.Built L) (fun y hy a b ha hb => ?_) (hns x (by simp)) hm
    exact combine ha (hns y (by simp [hy])) hb

end Built

theorem built_nested {s : Statement} (h : L (.nested s)) : (nested s).Built L := ⟨h, nofun, rfl⟩

theorem mem_leaves_nested {s t : Statement} : s ∈ (nested t).leaves.filterMap statement? ↔ s = t := by
  simp [leaves, statement?, nested]

/-! ## Replaced leaves -/

/-- The second tree is the first with every leaf replaced by a tree that `R` allows. -/
inductive Mapped (R : Node → Node → Prop) : Node → Node → Prop
  | leaf {e m p n} : R (leaf e m p) n → Mapped R (leaf e m p) n
  | combination {o l r l' r' m p} :
    Mapped R l l' → Mapped R r r' → Mapped R (combination o l r m p) (combination o l' r' m p)

/-- Replacing leaves in some monad, when `Yields x a` says that `x` may end with `a`. -/
theorem mapLeavesM_mapped {M : Type → Type} [Monad M] (Yields : M Node → Node → Prop)
    (hbind : ∀ {x : M Node} {f : Node → M Node} {b}, Yields (x >>= f) b → ∃ a, Yields x a ∧ Yields (f a) b)
    (hpure : ∀ {a b}, Yields (pure a) b → b = a) {f : Node → M Node} (h : Yields (n.mapLeavesM f) m) :
    n.Mapped (fun leaf k => Yields (f leaf) k) m := by
  induction n generalizing m with
  | leaf e ms p => exact .leaf h
  | combination o l r ms p ihl ihr =>
    rw [mapLeavesM] at h
    obtain ⟨l', hl, h⟩ := hbind h
    obtain ⟨r', hr, h⟩ := hbind h
    rw [hpure h]
    exact .combination (ihl hl) (ihr hr)

theorem mapLeavesM_ok {ε : Type} {f : Node → Except ε Node} (h : n.mapLeavesM f = .ok m) :
    n.Mapped (fun leaf k => f leaf = .ok k) m :=
  mapLeavesM_mapped (fun x a => x = Except.ok a) (fun h => bind_eq_ok.1 h) (fun h => (Except.ok.inj h).symm) h

namespace Mapped

variable {R : Node → Node → Prop}

theorem built {L' : Entry → Prop} (h : n.Mapped R m) (hn : n.Built L)
    (hR : ∀ e ms p k, (Node.leaf e ms p).Built L → R (.leaf e ms p) k → k.Built L') : m.Built L' := by
  induction h with
  | leaf hk => exact hR _ _ _ _ hn hk
  | combination _ _ ihl ihr => exact ⟨ihl hn.1, ihr hn.2.1, hn.2.2⟩

theorem imp {R' : Node → Node → Prop} (h : n.Mapped R m) (hR : ∀ leaf k, R leaf k → R' leaf k) : n.Mapped R' m := by
  induction h with
  | leaf hk => exact .leaf (hR _ _ hk)
  | combination _ _ ihl ihr => exact .combination ihl ihr

theorem get? {path : Path} {leaf : Node} (h : n.Mapped R m) (hget : n.get? path = some leaf)
    (hleaf : leaf.isLeaf = true) : ∃ k, m.get? path = some k ∧ R leaf k := by
  induction h generalizing path with
  | leaf hk =>
    cases path with
    | nil =>
      cases hget
      exact ⟨_, by simp, hk⟩
    | cons s path => cases s <;> cases hget
  | combination _ _ ihl ihr =>
    cases path with
    | nil =>
      cases hget
      cases hleaf
    | cons s path =>
      cases s
      · exact ihl hget
      · exact ihr hget

/-- What stands in the new tree came from a leaf of the old one, or is a combination of both. -/
theorem of_get? {path : Path} {k : Node} (h : n.Mapped R m) (hget : m.get? path = some k) (hk : k.isLeaf = true) :
    ∃ at' leaf new place, path = at' ++ place ∧ n.get? at' = some leaf ∧ leaf.isLeaf = true ∧ R leaf new ∧
      new.get? place = some k := by
  induction h generalizing path with
  | leaf hR => exact ⟨[], _, _, path, rfl, get?_nil _, rfl, hR, hget⟩
  | combination _ _ ihl ihr =>
    cases path with
    | nil =>
      cases hget
      cases hk
    | cons s path =>
      cases s
      · obtain ⟨at', leaf, new, place, rfl, hat, hrest⟩ := ihl hget
        exact ⟨.left :: at', leaf, new, place, rfl, hat, hrest⟩
      · obtain ⟨at', leaf, new, place, rfl, hat, hrest⟩ := ihr hget
        exact ⟨.right :: at', leaf, new, place, rfl, hat, hrest⟩

end Mapped

end Node

end InstitutionalGrammar
