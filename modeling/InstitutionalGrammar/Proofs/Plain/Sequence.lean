/-
  InstitutionalGrammar.Proofs.Plain.Sequence — plain and combined nested statements of one component.

  Combined statements are attached before plain ones, wherever their blocks stand.
  - `Holds`: the statement holds given leaves in one complex slot, and nothing else.
  - `attachCombinations_sequence`, `nestedGroups_sequence`: the two phases, block by block.
  - `parse_sequence`: the leaves of the slot, in order.
  - `combined_block_first`: a combined block behind a plain one is read in front of it.
-/

import InstitutionalGrammar.Proofs.Plain.Combined
import InstitutionalGrammar.Proofs.Plain.Runs

namespace InstitutionalGrammar

/-! ## Leaves -/

namespace Node

/-- The addresses of the leaves, in order, lead to the leaves. -/
theorem get?_paths (n : Node) : (n.paths.map fun path => n.get? path) = n.leaves.map some := by
  induction n with
  | leaf e m p => rfl
  | combination o l r m p ihl ihr =>
    rw [paths, leaves, List.map_append, List.map_map, List.map_map, List.map_append, ← ihl, ← ihr]
    rfl

theorem leaves_joinedUnder (c : Component) (o : Operator) (n : Node) (ns : List Node) :
    (joinedUnder c o n ns).leaves = n.leaves ++ ns.flatMap leaves := by
  induction ns generalizing n with
  | nil => simp [joinedUnder]
  | cons m ns ih =>
    have hcons : joinedUnder c o n (m :: ns) = joinedUnder c o (.combination o n m { component := some c } []) ns := rfl
    rw [hcons, ih, leaves, List.flatMap_cons, List.append_assoc]

end Node

/-! ## Blocks of one component -/

/-- What stands in a block: one statement, or several under one operator, each behind its own tag. -/
inductive BlockForm where
  | plain (s : Statement)
  | joined (o : Operator) (first : Statement) (later : List Statement)

namespace BlockForm

def isPlain : BlockForm → Bool
  | plain _ => true
  | joined .. => false

/-- The statements in the order in which they are written. -/
def statements : BlockForm → List Statement
  | plain s => [s]
  | joined _ s ss => s :: ss

/-- How deep its combinations nest. -/
def height : BlockForm → Nat
  | plain _ => 0
  | joined _ _ ss => ss.length

def inner (c : Component) : BlockForm → Text
  | plain s => s.render
  | joined o s ss => blockText c s.render ++ chain o (ss.map fun u => blockText c u.render)

/-- The statements of a combined block, joined from the left. -/
def tagged (c : Component) (o : Operator) (s : Statement) (ss : List Statement) : TaggedTree :=
  ss.foldl (fun l u => .combination o l (.leaf c u)) (.leaf c s)

def Sound : BlockForm → Prop
  | plain s => s.Plain
  | joined o s ss => o.isSynthetic = false ∧ ss ≠ [] ∧ ∀ u ∈ s :: ss, u.Plain

/-- What a block of that form stands for. -/
def content (c : Component) (off : Nat) : BlockForm → BlockContent
  | plain s => .nested (c.headerAt off .braces) s.render
  | joined o s ss => .combined (c.headerAt off .braces) (tagged c o s ss).coded

section Tagged

variable {c : Component} {o : Operator} {s : Statement} {ss : List Statement}

theorem coded_tagged : (tagged c o s ss).coded =
    Node.joined o (.coded (blockText c s.render)) ((ss.map fun u => blockText c u.render).map .coded) := by
  have hfold : ∀ t : TaggedTree, (ss.foldl (fun l u => .combination o l (.leaf c u)) t).coded =
      Node.joined o t.coded ((ss.map fun u => blockText c u.render).map .coded) := by
    induction ss with
    | nil => intro t; rfl
    | cons u ss ih => intro t; exact ih _
  exact hfold _

theorem plain_tagged (ho : o.isSynthetic = false) (h : ∀ u ∈ s :: ss, u.Plain) : (tagged c o s ss).Plain := by
  have hfold : ∀ t : TaggedTree, t.Plain → (ss.foldl (fun l u => .combination o l (.leaf c u)) t).Plain := by
    have hss : ∀ u ∈ ss, u.Plain := fun u hu => h u (by simp [hu])
    clear h
    induction ss with
    | nil => intro t ht; exact ht
    | cons u ss ih =>
      intro t ht
      exact ih (fun v hv => hss v (by simp [hv])) _ (.combination ho ht (.leaf (hss u (by simp))))
  exact hfold _ (.leaf (h s (by simp)))

theorem leaves_tagged : (tagged c o s ss).leaves = (s :: ss).map (c, ·) := by
  have hfold : ∀ t : TaggedTree, (ss.foldl (fun l u => .combination o l (.leaf c u)) t).leaves =
      t.leaves ++ ss.map (c, ·) := by
    induction ss with
    | nil => intro t; simp
    | cons u ss ih => intro t; simp [ih, TaggedTree.leaves]
  exact hfold _

theorem height_tagged (hss : ss ≠ []) : 1 ≤ (tagged c o s ss).height := by
  obtain ⟨init, last, rfl⟩ : ∃ init last, ss = init ++ [last] :=
    ⟨_, _, (List.dropLast_concat_getLast hss).symm⟩
  rw [tagged, List.foldl_append]
  simp [TaggedTree.height]

end Tagged

variable {x : BlockForm}

theorem Sound.plain (h : x.Sound) : ∀ s ∈ x.statements, s.Plain := by
  cases x with
  | plain s =>
    intro u hu
    rw [List.mem_singleton.1 hu]
    exact h
  | joined o s ss => exact h.2.2

theorem Sound.tidy (h : x.Sound) (c : Component) : Tidy (x.inner c) := by
  have hblock : ∀ s ∈ x.statements, Tidy s.render ∧ Tidy (blockText c s.render) := by
    intro s hs
    have htidy := ((h.plain s hs).arranged_render.atom (h.plain s hs)).tidy
    exact ⟨htidy, (blockText_atom c htidy).tidy⟩
  cases x with
  | plain s => exact (hblock s (by simp [statements])).1
  | joined o s ss =>
    refine (hblock s (by simp [statements])).2.append (tidy_chain h.1 fun t ht => ?_)
    obtain ⟨u, hu, rfl⟩ := List.mem_map.1 ht
    exact (hblock u (by simp [statements, hu])).2

/-- The content of a block is what its form stands for. -/
theorem Sound.taggedContent (h : x.Sound) {c : Component} (hc : c.nests = true) {limit : Nat} (hlimit : x.height ≤ limit)
    (off : Nat) : taggedContent limit (c.headerAt off .braces) (x.inner c) (Piece.braced (x.inner c)) =
      .ok (x.content c off) := by
  cases x with
  | plain s => exact taggedContent_atom (Statement.Plain.arranged_render h |>.atom h) limit (c.headerAt off .braces) hc
  | joined o s ss =>
    obtain ⟨ho, hne, hplain⟩ := h
    have htagged := plain_tagged (c := c) ho hplain
    obtain ⟨u, later, rfl⟩ := List.exists_cons_of_ne_nil hne
    have hatom : ∀ v ∈ s :: u :: later, Atom .braces (blockText c v.render) := fun v hv =>
      blockText_atom c ((hplain v hv).arranged_render.atom (hplain v hv)).tidy
    have htree : combinationTree .braces limit (Piece.braced ((joined o s (u :: later)).inner c)) =
        .ok (tagged c o s (u :: later)).coded := by
      have hbraced : Piece.braced ((joined o s (u :: later)).inner c) = Delimiters.braces.opening ::
          ((Node.coded (blockText c s.render)).write .braces ++
            (chain o ((u :: later).map fun u => blockText c u.render) ++ [Delimiters.braces.closing])) := by
        simp [Piece.braced, inner, Node.write_coded]
      rw [hbraced, coded_tagged]
      refine treeWithin_chain ho (.leaf (hatom s (by simp))) ?_ ?_
      · intro t ht
        rw [← List.map_cons (f := fun u => blockText c (Statement.render u))] at ht
        obtain ⟨v, hv, rfl⟩ := List.mem_map.1 ht
        exact hatom v (List.mem_cons_of_mem _ hv)
      · simp only [height, List.length_cons] at hlimit
        simp only [Node.height, List.length_cons, List.length_map]
        omega
    exact htagged.taggedContent_eq (height_tagged (by simp)) htree _ hc

end BlockForm

/-! ## The text -/

/-- The blocks one after another, each behind the white space in front of it. -/
def sequencePieces (c : Component) (bs : List (Text × BlockForm)) : List Piece :=
  bs.flatMap fun x => [.gap x.1, .block (some c) (x.2.inner c)]

def sequenceText (c : Component) (bs : List (Text × BlockForm)) : Text :=
  bs.flatMap fun x => x.1 ++ blockText c (x.2.inner c)

/-- The statements as they are written. -/
def writtenOrder (bs : List (Text × BlockForm)) : List Statement := bs.flatMap (·.2.statements)

/-- The statements of the combined blocks, and behind them those of the plain ones. -/
def attachedOrder (bs : List (Text × BlockForm)) : List Statement :=
  (bs.filter (!·.2.isPlain)).flatMap (·.2.statements) ++ (bs.filter (·.2.isPlain)).flatMap (·.2.statements)

/-- No plain block stands in front of a combined one. -/
def PlainLast (bs : List (Text × BlockForm)) : Prop :=
  bs.Pairwise fun x y => x.2.isPlain = true → y.2.isPlain = true

section Sequence

variable {c : Component} {bs : List (Text × BlockForm)}

theorem written_sequencePieces : (sequencePieces c bs).flatMap Piece.written = sequenceText c bs := by
  rw [sequencePieces, List.flatMap_assoc, sequenceText]
  refine congrArg (bs.flatMap ·) (funext fun x => ?_)
  simp [Piece.written, blockText, Piece.braced, tagText]

theorem sound_sequencePieces (h : ∀ x ∈ bs, Text.allBlank x.1 = true ∧ x.2.Sound) :
    ∀ x ∈ sequencePieces c bs, x.Sound ∧ x.isContent = false := by
  intro x hx
  obtain ⟨y, hy, hx⟩ := List.mem_flatMap.1 hx
  rcases List.mem_cons.1 hx with hx | hx
  · rw [hx]
    exact ⟨Gap.of_allBlank (h y hy).1, rfl⟩
  · rw [List.mem_singleton.1 hx]
    exact ⟨(h y hy).2.tidy c, rfl⟩

/-- Nothing but white space is left of the text when its blocks are blanked out. -/
theorem allBlank_sequence (h : ∀ x ∈ bs, Text.allBlank x.1 = true) :
    Text.allBlank (atomicOf (sequencePieces c bs)) = true := by
  rw [Text.allBlank, List.all_eq_true]
  intro e he
  obtain ⟨y, hy, he⟩ := List.mem_flatMap.1 he
  obtain ⟨x, hx, rfl⟩ := List.mem_map.1 hy
  obtain ⟨z, hz, hx⟩ := List.mem_flatMap.1 hx
  rcases List.mem_cons.1 hx with hx | hx
  · rw [hx] at he
    exact List.all_eq_true.1 (h z hz) e he
  · rw [List.mem_singleton.1 hx] at he
    rw [List.eq_of_mem_replicate he]
    rfl

/-- The blocks that stand for the forms, one after another. -/
inductive FormedBlocks (c : Component) : List (Text × BlockForm) → List Block → Prop
  | nil : FormedBlocks c [] []
  | cons {t : Text} {x : BlockForm} {bs : List (Text × BlockForm)} {b : Block} {blocks : List Block} (off : Nat) :
      b.content = x.content c off → FormedBlocks c bs blocks → FormedBlocks c ((t, x) :: bs) (b :: blocks)

theorem sequence_blocks (hc : c.nests = true) (h : ∀ x ∈ bs, Text.allBlank x.1 = true ∧ x.2.Sound) {limit : Nat}
    (hlimit : ∀ x ∈ bs, x.2.height ≤ limit) (off : Nat) :
    ∃ blocks, blocksOf limit off (sequencePieces c bs) = .ok blocks ∧ FormedBlocks c bs blocks := by
  induction bs generalizing off with
  | nil => exact ⟨[], rfl, .nil⟩
  | cons x bs ih =>
    obtain ⟨later, hlater, hforms⟩ := ih (fun y hy => h y (by simp [hy])) (fun y hy => hlimit y (by simp [hy]))
      (off + x.1.size + (blockText c (x.2.inner c)).size)
    have hcontent := (h x (by simp)).2.taggedContent hc (hlimit x (by simp)) (off + x.1.size)
    let b : Block := ⟨off + x.1.size, off + x.1.size + (blockText c (x.2.inner c)).size, blockText c (x.2.inner c),
      x.2.content c (off + x.1.size)⟩
    refine ⟨b :: later, ?_, .cons _ rfl hforms⟩
    have hblock : (Piece.block (some c) (x.2.inner c)).blocks limit (off + x.1.size) = .ok [b] := by
      simp only [Piece.blocks, Piece.meaning, hcontent, ok_bind]
      rfl
    have hcons : sequencePieces c (x :: bs) = .gap x.1 :: .block (some c) (x.2.inner c) :: sequencePieces c bs := rfl
    have hgap : (Piece.gap x.1).written = x.1 := rfl
    rw [hcons, blocksOf, blocksOf, hgap, hblock, written_block, hlater]
    rfl

end Sequence

/-! ## Attaching -/

/-- The statement holds the leaves in its complex slot of `c`, in that order, and nothing else. -/
inductive Holds (c : Component) (hc : c.nests = true) : Statement → List Node → Prop
  | nothing : Holds c hc .empty []
  | tree {n : Node} : n.component? = some c → n.Unsuffixed → Holds c hc (.single (.complex c hc) n) n.leaves

section Attach

variable {c : Component} {hc : c.nests = true} {s : Statement} {ns : List Node}

theorem Statement.put_single (slot : Slot) (n m : Node) : (single slot n).put slot (some m) = single slot m := by
  refine ext_get fun other => ?_
  rw [get_put, get_single, get_single]
  by_cases h : other = slot
  · rw [if_pos h, if_pos h]
  · rw [if_neg h, if_neg h, if_neg h]

/-- What is attached comes behind what is held. -/
theorem Holds.nest (h : Holds c hc s ns) {m : Node} (hm : m.component? = some c) (hu : m.Unsuffixed) :
    ∃ s', s.nest c m = .ok s' ∧ Holds c hc s' (ns ++ m.leaves) := by
  cases h with
  | nothing => exact ⟨_, Statement.nest_fresh hc m rfl, .tree hm hu⟩
  | @tree n hn hun =>
    have hslot : Slot.of? c .complex = some (.complex c hc) := by simp [Slot.of?, hc]
    refine ⟨.single (.complex c hc) (.combination .syntheticAnd n m { component := some c } []), ?_,
      .tree rfl ⟨rfl, hun, hu⟩⟩
    unfold Statement.nest
    simp only [hslot, Statement.get_single_self, Node.combine_same hn hm, ok_bind, Statement.put_single]
    rfl

end Attach

section Phases

variable {c : Component} {read : Text → Report Node} {bs : List (Text × BlockForm)}
  {blocks : List Block}

/-- The nodes of the statements. -/
def leavesOf (c : Component) (ss : List Statement) : List Node := ss.map fun s => (Node.nested s).withComponent c

theorem TaggedTree.leaves_tree (t : TaggedTree) :
    t.tree.leaves = t.leaves.map fun x => (Node.nested x.2).withComponent x.1 := by
  induction t with
  | leaf tag s => rfl
  | combination o l r ihl ihr => simp [tree, Node.leaves, leaves, ihl, ihr]

theorem leaves_label (n : Node) (c : Component) (h : n.isLeaf = false) : (n.label c none none).leaves = n.leaves := by
  cases n with
  | leaf e m p => cases h
  | combination o l r m p => rfl

/-- The combined blocks are attached in the order in which they stand. -/
theorem attachCombinations_sequence (hc : c.nests = true) (h : ∀ x ∈ bs, x.2.Sound)
    (hread : ∀ x ∈ bs, ∀ u ∈ x.2.statements, read u.render = .done (.nested u)) (hblocks : FormedBlocks c bs blocks)
    {s : Statement} {ns : List Node} (hs : Holds c hc s ns) :
    ∃ s', attachCombinations read s blocks = .done s' ∧
      Holds c hc s' (ns ++ leavesOf c ((bs.filter (!·.2.isPlain)).flatMap (·.2.statements))) := by
  induction hblocks generalizing s ns with
  | nil => exact ⟨s, rfl, by simpa [leavesOf] using hs⟩
  | @cons t x bs b blocks off hcontent _ ih =>
    have hlater := fun {s : Statement} {ns : List Node} (hs : Holds c hc s ns) =>
      ih (fun y hy => h y (by simp [hy])) (fun y hy => hread y (by simp [hy])) hs
    rw [attachCombinations, hcontent]
    cases x with
    | plain u => exact hlater hs
    | joined o u us =>
      obtain ⟨ho, hne, hplain⟩ := h _ List.mem_cons_self
      have htagged := BlockForm.plain_tagged (c := c) ho hplain
      have hleaves : (BlockForm.tagged c o u us).leaves = (u :: us).map (c, ·) := BlockForm.leaves_tagged
      have hdone : ∀ y ∈ (BlockForm.tagged c o u us).leaves, read y.2.render = .done (.nested y.2) := by
        intro y hy
        rw [hleaves] at hy
        obtain ⟨v, hv, rfl⟩ := List.mem_map.1 hy
        exact hread _ List.mem_cons_self v hv
      have hsame : ∀ y ∈ (BlockForm.tagged c o u us).leaves, y.1 = (c.headerAt off .braces).component := by
        intro y hy
        rw [hleaves] at hy
        obtain ⟨v, -, rfl⟩ := List.mem_map.1 hy
        rfl
      have hattach := attachCombination_tagged b.raw htagged hdone hsame s
      obtain ⟨s', hs', hholds⟩ := hs.nest (m := (BlockForm.tagged c o u us).tree.label c none none)
        (by cases (BlockForm.tagged c o u us).tree <;> rfl) ((TaggedTree.unsuffixed_tree _).label c)
      have hdone : attachCombination read b.raw (c.headerAt off .braces) (BlockForm.tagged c o u us).coded s = .done s' :=
        hattach.trans (congrArg liftM hs')
      obtain ⟨s'', hs'', hfinal⟩ := hlater hholds
      refine ⟨s'', ?_, ?_⟩
      · simp only [BlockForm.content, hdone, Report.done_bind]
        exact hs''
      · have hnodes : ((BlockForm.tagged c o u us).tree.label c none none).leaves = leavesOf c (u :: us) := by
          have hcomb : (BlockForm.tagged c o u us).tree.isLeaf = false := by
            have hheight := BlockForm.height_tagged (c := c) (o := o) (s := u) hne
            cases htree : BlockForm.tagged c o u us with
            | leaf tag v =>
              rw [htree] at hheight
              cases hheight
            | combination p l r => rfl
          rw [leaves_label _ _ hcomb, TaggedTree.leaves_tree, hleaves, List.map_map]
          rfl
        rw [hnodes] at hfinal
        simpa [leavesOf, BlockForm.isPlain, BlockForm.statements] using hfinal

/-- The group that the nodes make, if there are any. -/
inductive Gathered (c : Component) : List Node → List NestedGroup → Prop
  | nothing : Gathered c [] []
  | group {n : Node} {ns : List Node} (start stop : Nat) : Gathered c (n :: ns) [⟨c, n :: ns, start, stop⟩]

theorem Gathered.add {ns : List Node} {groups : List NestedGroup} (h : Gathered c ns groups) (n : Node)
    (start stop : Nat) : Gathered c (ns ++ [n]) (addToGroup c n start stop groups) := by
  cases h with
  | nothing => exact .group start stop
  | @group m ns first last =>
    have hadd : addToGroup c n start stop ([] ++ [⟨c, m :: ns, first, last⟩]) = [] ++ [⟨c, m :: ns ++ [n], first, stop⟩] :=
      addToGroup_last (fun _ hg => absurd hg List.not_mem_nil) n (m :: ns) first last start stop
    rw [List.nil_append, List.nil_append] at hadd
    rw [hadd]
    exact .group first stop

/-- The plain blocks make one group, in the order in which they stand. -/
theorem nestedGroups_sequence (hread : ∀ x ∈ bs, ∀ u ∈ x.2.statements, read u.render = .done (.nested u))
    (hblocks : FormedBlocks c bs blocks) {groups : List NestedGroup} {ns : List Node} (hg : Gathered c ns groups) :
    ∃ groups', nestedGroups read groups blocks = .done groups' ∧
      Gathered c (ns ++ leavesOf c ((bs.filter (·.2.isPlain)).flatMap (·.2.statements))) groups' := by
  induction hblocks generalizing groups ns with
  | nil => exact ⟨groups, rfl, by simpa [leavesOf] using hg⟩
  | @cons t x bs b blocks off hcontent _ ih =>
    have hlater := fun {groups : List NestedGroup} {ns : List Node} (hg : Gathered c ns groups) =>
      ih (fun y hy => hread y (by simp [hy])) hg
    rw [nestedGroups, hcontent]
    cases x with
    | plain u =>
      have hdone := hread _ List.mem_cons_self u (by simp [BlockForm.statements])
      obtain ⟨groups', hgroups, hfinal⟩ := hlater (hg.add ((Node.nested u).withComponent c) b.start b.stop)
      refine ⟨groups', ?_, ?_⟩
      · simp only [BlockForm.content, hdone, Report.done_bind]
        exact hgroups
      · simpa [leavesOf, BlockForm.isPlain, BlockForm.statements] using hfinal
    | joined o u us => exact hlater hg

/-- The group is attached behind what is held. -/
theorem attachGroup_sequence (options : Options) {hc : c.nests = true} {atomic : Text} (hblank : Text.allBlank atomic = true)
    {ss : List Statement} {groups : List NestedGroup} (hg : Gathered c (leavesOf c ss) groups) {s : Statement}
    {ns : List Node} (hs : Holds c hc s ns) :
    ∃ s', groups.foldlM (attachGroup options atomic) s = .ok s' ∧ Holds c hc s' (ns ++ leavesOf c ss) := by
  have hnodes : ∀ n ∈ leavesOf c ss, n.component? = some c ∧ n.Unsuffixed ∧ n.leaves = [n] := by
    intro n hn
    obtain ⟨u, -, rfl⟩ := List.mem_map.1 hn
    exact ⟨rfl, rfl, rfl⟩
  generalize leavesOf c ss = nodes at hg hnodes
  cases hg with
  | nothing => exact ⟨s, rfl, by simpa using hs⟩
  | @group n nodes start stop =>
    have houter : outerOperators atomic = [] := by
      have hscan := Separator.outerFrom_blank hblank .start []
      unfold outerOperators
      rw [← outerFrom_signs]
      rw [List.append_nil] at hscan
      exact hscan
    obtain ⟨o, ho⟩ : ∃ o, joiningOperator options atomic start stop = .ok o := by
      unfold joiningOperator
      rw [houter]
      cases options.nestedOperator with
      | some o => exact ⟨o, rfl⟩
      | none => exact ⟨_, rfl⟩
    have hattach := attachGroup_joined (s := s) (fun x hx => (hnodes x hx).1) ho
    obtain ⟨s', hs', hholds⟩ := hs.nest (m := Node.joinedUnder c o n nodes)
      (Node.component?_joinedUnder (hnodes n (by simp)).1)
      (Node.unsuffixed_joinedUnder fun x hx => (hnodes x hx).2.1)
    have hleaves : (Node.joinedUnder c o n nodes).leaves = n :: nodes := by
      have hsingle : ∀ ms : List Node, (∀ m ∈ ms, m.leaves = [m]) → ms.flatMap Node.leaves = ms := by
        intro ms
        induction ms with
        | nil => intro _; rfl
        | cons m ms ih =>
          intro hms
          rw [List.flatMap_cons, hms m (by simp), ih fun x hx => hms x (by simp [hx])]
          rfl
      rw [Node.leaves_joinedUnder, ← List.flatMap_cons, hsingle _ fun m hm => (hnodes m hm).2.2]
    refine ⟨s', ?_, hleaves ▸ hholds⟩
    rw [List.foldlM_cons, hattach, hs', ok_bind]
    rfl

end Phases

/-! ## The two orders -/

section Order

variable {bs : List (Text × BlockForm)}

theorem BlockForm.statements_ne_nil (x : BlockForm) : x.statements ≠ [] := by
  cases x with
  | plain s => exact List.cons_ne_nil _ _
  | joined o s ss => exact List.cons_ne_nil _ _

theorem attachedOrder_plain {t : Text} {x : BlockForm} (hx : x.isPlain = true) :
    attachedOrder ((t, x) :: bs) = (bs.filter (!·.2.isPlain)).flatMap (·.2.statements) ++
      (x.statements ++ (bs.filter (·.2.isPlain)).flatMap (·.2.statements)) := by
  simp [attachedOrder, hx]

theorem attachedOrder_joined {t : Text} {x : BlockForm} (hx : x.isPlain = false) :
    attachedOrder ((t, x) :: bs) = x.statements ++ attachedOrder bs := by
  simp [attachedOrder, hx]

/-- Without combined blocks behind plain ones, the statements are attached as they are written. -/
theorem attachedOrder_eq (h : PlainLast bs) : attachedOrder bs = writtenOrder bs := by
  induction bs with
  | nil => rfl
  | cons b bs ih =>
    obtain ⟨t, x⟩ := b
    obtain ⟨hx, hbs⟩ := List.pairwise_cons.1 h
    have hcons : writtenOrder ((t, x) :: bs) = x.statements ++ writtenOrder bs := rfl
    cases hplain : x.isPlain with
    | true =>
      have hall : ∀ y ∈ bs, y.2.isPlain = true := fun y hy => hx y hy hplain
      have hjoined : bs.filter (!·.2.isPlain) = [] := by
        rw [List.filter_eq_nil_iff]
        intro y hy
        simp [hall y hy]
      rw [attachedOrder_plain hplain, hjoined, List.filter_eq_self.2 hall, hcons]
      rfl
    | false => rw [attachedOrder_joined hplain, ih hbs, hcons]

/-- A combined block behind a plain one shows where no statement is written twice. -/
theorem plainLast_of_eq (hnodup : (writtenOrder bs).Nodup) (h : attachedOrder bs = writtenOrder bs) : PlainLast bs := by
  induction bs with
  | nil => exact .nil
  | cons b bs ih =>
    obtain ⟨t, x⟩ := b
    have hcons : writtenOrder ((t, x) :: bs) = x.statements ++ writtenOrder bs := rfl
    rw [hcons] at hnodup h
    cases hplain : x.isPlain with
    | false =>
      rw [attachedOrder_joined hplain] at h
      refine .cons (fun y _ hx => ?_) (ih (List.nodup_append.1 hnodup).2.1 (List.append_cancel_left h))
      rw [hplain] at hx
      cases hx
    | true =>
      rw [attachedOrder_plain hplain] at h
      -- the first statement attached is the one of the plain block, so none comes from a combined block
      have hall : ∀ y ∈ bs, y.2.isPlain = true := by
        intro y hy
        cases hy' : y.2.isPlain with
        | true => rfl
        | false =>
          have hmem : ∀ u ∈ y.2.statements, u ∈ (bs.filter (!·.2.isPlain)).flatMap (·.2.statements) := fun u hu =>
            List.mem_flatMap.2 ⟨y, List.mem_filter.2 ⟨hy, by simp [hy']⟩, hu⟩
          obtain ⟨u, hu⟩ := List.exists_mem_of_ne_nil _ y.2.statements_ne_nil
          obtain ⟨v, vs, hvs⟩ := List.exists_cons_of_ne_nil (List.ne_nil_of_mem (hmem u hu))
          have hwritten : v ∈ writtenOrder bs := by
            have hv : v ∈ (bs.filter (!·.2.isPlain)).flatMap (·.2.statements) := by rw [hvs]; simp
            obtain ⟨z, hz, hv⟩ := List.mem_flatMap.1 hv
            exact List.mem_flatMap.2 ⟨z, (List.mem_filter.1 hz).1, hv⟩
          obtain ⟨w, ws, hws⟩ := List.exists_cons_of_ne_nil x.statements_ne_nil
          rw [hvs, hws] at h
          rw [hws] at hnodup
          have hvw : v = w := (List.cons.inj h).1
          exact absurd (List.mem_append.2 (.inr (hvw ▸ hwritten))) (List.nodup_cons.1 hnodup).1
      exact .cons (fun y hy _ => hall y hy) (List.pairwise_of_forall_mem_list fun y _ z hz _ => hall z hz)

end Order

/-! ## The whole sequence -/

theorem Holds.exists_tree {c : Component} {hc : c.nests = true} {s : Statement} {ns : List Node} (h : Holds c hc s ns)
    (hns : ns ≠ []) : ∃ n, s = .single (.complex c hc) n ∧ n.leaves = ns ∧ n.Unsuffixed := by
  cases h with
  | nothing => exact absurd rfl hns
  | @tree n hn hu => exact ⟨n, rfl, rfl, hu⟩

theorem FormedBlocks.pairs {c : Component} {bs : List (Text × BlockForm)} {blocks : List Block}
    (h : FormedBlocks c bs blocks) : Reading.pairs blocks = [] := by
  induction h with
  | nil => rfl
  | @cons t x bs b blocks off hcontent _ ih =>
    unfold Reading.pairs at ih ⊢
    rw [List.filterMap_cons, hcontent, ih]
    cases x <;> rfl

theorem leavesOf_injective {c : Component} {ss ts : List Statement} (h : leavesOf c ss = leavesOf c ts) : ss = ts := by
  refine (List.map_inj_right fun s t hst => ?_).1 h
  simp only [Node.nested, Node.withComponent, Node.withMarks] at hst
  injection hst with hentry
  injection hentry

/-- The complex slot holds the statements of the combined blocks and behind them those of the plain
    ones, each in the order of the text: in textual order exactly if no plain block stands in front of a
    combined one. -/
theorem parse_sequence {c : Component} (hc : c.nests = true) {bs : List (Text × BlockForm)} (hne : bs ≠ [])
    (hsound : ∀ x ∈ bs, Text.allBlank x.1 = true ∧ x.2.Sound) (options : Options)
    (hlimit : ∀ x ∈ bs, x.2.height ≤ options.depthLimit)
    (hnesting : ∀ x ∈ bs, ∀ s ∈ x.2.statements, s.nesting + 1 ≤ options.depthLimit)
    (hheight : ∀ x ∈ bs, ∀ s ∈ x.2.statements, ∀ u ∈ s.statements, ∀ p ∈ u.populated,
      p.2.height ≤ options.depthLimit) :
    ∃ n, parse options (sequenceText c bs) = .ok ⟨.nested (.single (.complex c hc) n), []⟩ ∧
      (n.paths.map fun path => n.get? path) = (leavesOf c (attachedOrder bs)).map some ∧
      (PlainLast bs → (n.paths.map fun path => n.get? path) = (leavesOf c (writtenOrder bs)).map some) ∧
      ((writtenOrder bs).Nodup →
        (n.paths.map fun path => n.get? path) = (leavesOf c (writtenOrder bs)).map some → PlainLast bs) := by
  have hread : ∀ x ∈ bs, ∀ s ∈ x.2.statements,
      Reading.within options options.depthLimit s.render = .done (.nested s) := by
    intro x hx s hs
    have hplain := (hsound x hx).2.plain s hs
    exact within_arranged hplain.arranged_render hplain (hnesting x hx s hs) (hheight x hx s hs)
  obtain ⟨blocks, hblocks, hforms⟩ := sequence_blocks hc hsound hlimit 0
  obtain ⟨s, hs, hholds⟩ := attachCombinations_sequence hc (fun x hx => (hsound x hx).2) hread hforms .nothing
  obtain ⟨groups, hgroups, hgathered⟩ := nestedGroups_sequence hread hforms .nothing
  obtain ⟨s', hs', hholds'⟩ := attachGroup_sequence options
    (allBlank_sequence (c := c) fun x hx => (hsound x hx).1) hgathered hholds
  have hattach : attachBlocks options (Reading.within options options.depthLimit)
      ⟨atomicOf (sequencePieces c bs), blocks⟩ .empty = .done s' := by
    unfold attachBlocks
    rw [hs, Report.done_bind, hgroups, Report.done_bind, hs']
    rfl
  have hleaves : leavesOf c (attachedOrder bs) ≠ [] := by
    obtain ⟨x, later, rfl⟩ := List.exists_cons_of_ne_nil hne
    obtain ⟨t, x⟩ := x
    have hx := x.statements_ne_nil
    cases hplain : x.isPlain with
    | true => simp [leavesOf, attachedOrder_plain hplain, hx]
    | false => simp [leavesOf, attachedOrder_joined hplain, hx]
  have hattached : Holds c hc s' (leavesOf c (attachedOrder bs)) := by
    rw [attachedOrder, leavesOf, List.map_append]
    exact hholds'
  obtain ⟨n, rfl, hn, hunsuffixed⟩ := hattached.exists_tree hleaves
  refine ⟨n, ?_, ?_, ?_, ?_⟩
  · unfold parse Reading.of
    rw [← written_sequencePieces, Reading.step_blocks (sound_sequencePieces hsound) hblocks hforms.pairs hattach
      (Statement.unsuffixed_single hunsuffixed) (Statement.isEmpty_eq_false (Statement.get_single_self _ _))]
    rfl
  · rw [n.get?_paths, hn]
  · intro hlast
    rw [n.get?_paths, hn, attachedOrder_eq hlast]
  · intro hnodup horder
    rw [n.get?_paths, hn] at horder
    exact plainLast_of_eq hnodup (leavesOf_injective ((List.map_inj_right fun _ _ => Option.some.inj).1 horder))

/-- One condition, and behind it two under one operator. -/
def conditionBeforeCombined : List (Text × BlockForm) :=
  let word (v : Char) := Statement.only .aim [v]
  [([], .plain (word 'a')), ([' '], .joined .and (word 'b') [word 'c'])]

example : sequenceText .activationCondition conditionBeforeCombined =
    "Cac{I(a)} Cac{Cac{I(b)} [AND] Cac{I(c)}}".toList := by decide

theorem sound_conditionBeforeCombined : ∀ x ∈ conditionBeforeCombined, Text.allBlank x.1 = true ∧ x.2.Sound := by
  have ha := Statement.plain_only .aim (v := ['a']) (by decide)
  have hb := Statement.plain_only .aim (v := ['b']) (by decide)
  have hc := Statement.plain_only .aim (v := ['c']) (by decide)
  simp only [conditionBeforeCombined, List.forall_mem_cons, List.not_mem_nil, false_implies, implies_true, and_true]
  exact ⟨⟨rfl, ha⟩, rfl, rfl, List.cons_ne_nil _ _, by simp [hb, hc]⟩

theorem parse_sequence_conditionBeforeCombined :
    ∃ n, parse {} (sequenceText .activationCondition conditionBeforeCombined) =
        .ok ⟨.nested (.single (.complex .activationCondition rfl) n), []⟩ ∧
      (n.paths.map fun path => n.get? path) = (leavesOf .activationCondition
        [.only .aim ['b'], .only .aim ['c'], .only .aim ['a']]).map some := by
  obtain ⟨n, hn, horder, -⟩ := parse_sequence (c := .activationCondition) rfl (List.cons_ne_nil _ _)
    sound_conditionBeforeCombined {} (by decide) (by decide +kernel) (by decide +kernel)
  exact ⟨n, hn, horder⟩

/-- A combined block behind a plain one is read in front of it. -/
theorem combined_block_first : ¬ ∀ (c : Component) (hc : c.nests = true) (bs : List (Text × BlockForm)),
    (∀ x ∈ bs, Text.allBlank x.1 = true ∧ x.2.Sound) → ∀ options : Options,
    (∀ x ∈ bs, x.2.height ≤ options.depthLimit) →
    (∀ x ∈ bs, ∀ s ∈ x.2.statements, s.nesting + 1 ≤ options.depthLimit) →
    (∀ x ∈ bs, ∀ s ∈ x.2.statements, ∀ u ∈ s.statements, ∀ p ∈ u.populated, p.2.height ≤ options.depthLimit) →
    ∀ p s n, parse options (sequenceText c bs) = .ok p → p.tree.statement? = some s →
      s.get (.complex c hc) = some n →
      (n.paths.map fun path => n.get? path) = (leavesOf c (writtenOrder bs)).map some := by
  intro hall
  obtain ⟨p, hp, hrun⟩ := exists_ok (x := parse {} (sequenceText .activationCondition conditionBeforeCombined))
    (p := fun p => p.tree.statement?.any fun s => (s.get (.complex .activationCondition rfl)).any fun n =>
      decide ((n.paths.map fun path => n.get? path) ≠
        (leavesOf .activationCondition (writtenOrder conditionBeforeCombined)).map some)) (by decide +kernel)
  obtain ⟨s, hs, hrun⟩ := (Option.any_eq_true _ _).1 hrun
  obtain ⟨n, hn, horder⟩ := (Option.any_eq_true _ _).1 hrun
  exact of_decide_eq_true horder (hall .activationCondition rfl conditionBeforeCombined sound_conditionBeforeCombined {}
    (by decide) (by decide +kernel) (by decide +kernel) p s n hp hs hn)

end InstitutionalGrammar
