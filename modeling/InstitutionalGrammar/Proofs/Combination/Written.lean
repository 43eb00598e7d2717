/-
  InstitutionalGrammar.Proofs.Combination.Written — trees written with the delimiters of a search.

  A coded tree has atoms for its leaves and shared texts: texts in which a search for combinations
  finds nothing.
  - `write_parentheses`: written with parentheses, a tree is rendered.
  - `Node.Coded.tidy`, `Node.Coded.trimmed`: a written tree is tidy and trimmed.
-/

import InstitutionalGrammar.Proofs.Combination.Cues

namespace InstitutionalGrammar

/-- The text shared in front of a node, with the space behind each part. -/
def Marks.lead (m : Marks) : Text := m.sharedLeft.flatMap (· ++ [' '])

def Marks.trail (m : Marks) : Text := m.sharedRight.flatMap (' ' :: ·)

/-- The tree written with the delimiters `d` around its combinations. -/
def Node.write (d : Delimiters) : Node → Text
  | .combination o l r m _ => m.surround ([d.opening] ++ joinSpaced [l.write d, o.token, r.write d] ++ [d.closing])
  | .leaf e m _ => m.surround e.render

/-- Trees under written operators, with at most one shared text on each side of a combination. Leaves
    and shared texts are atoms, and nothing else is marked. -/
inductive Node.Coded (atom : Text → Prop) : Node → Prop
  | leaf {v : Text} : atom v → Coded atom (.leaf (.text v) {} [])
  | combination {o : Operator} {l r : Node} {before after : Option Text} : o.isSynthetic = false →
      Coded atom l → Coded atom r → (∀ t ∈ before, atom t) → (∀ t ∈ after, atom t) →
      Coded atom (.combination o l r { sharedLeft := before.toList, sharedRight := after.toList } [])

/-- The search for combinations scoped by `d` passes over the text, wherever it stands. -/
structure Silent (d : Delimiters) (t : Text) : Prop where
  tidy : Tidy t
  cues_signs : ∀ {u v : Text} {p : Position}, Clear u → p.offset = u.size → ∀ ts,
    cues d (PlacedShape.all (u ++ (t ++ v))) (signs p t ++ ts) = cues d (PlacedShape.all (u ++ (t ++ v))) ts

/-- A text that can be an operand or shared text. -/
structure Atom (d : Delimiters) (t : Text) : Prop extends Silent d t where
  ne_nil : t ≠ []
  trimmed : t.trim = t
  head : ∀ c ∈ t.head?, isClosing c = false ∧ c ≠ d.opening
  last : ∀ c ∈ t.getLast?, isOpening c = false

/-- A character that structures nothing can be the first one of an operand. -/
theorem head_of_unreserved {c : Char} (h : isReserved c = false) (d : Delimiters) : isClosing c = false ∧ c ≠ d.opening :=
  ⟨(Bool.or_eq_false_iff.1 (isDelimiter_of_reserved h)).2, ne_opening (isDelimiter_of_reserved h) d⟩

/-! ## Written forms -/

theorem joinSpaced_cons_of_ne_nil (t : Text) {ts : List Text} (h : ts ≠ []) :
    joinSpaced (t :: ts) = t ++ ' ' :: joinSpaced ts := by
  cases ts with
  | nil => exact absurd rfl h
  | cons u us => simp [joinSpaced, Text.join]

theorem joinSpaced_cons (t : Text) (ts : List Text) : joinSpaced (t :: ts) = t ++ ts.flatMap (' ' :: ·) := by
  induction ts generalizing t with
  | nil => simp [joinSpaced, Text.join]
  | cons u us ih => rw [joinSpaced_cons_of_ne_nil t (by simp), ih, List.flatMap_cons, List.cons_append]

theorem joinSpaced_append_cons (ts : List Text) (core : Text) (us : List Text) :
    joinSpaced (ts ++ core :: us) = ts.flatMap (· ++ [' ']) ++ (core ++ us.flatMap (' ' :: ·)) := by
  induction ts with
  | nil => simpa using joinSpaced_cons core us
  | cons t ts ih => rw [List.cons_append, joinSpaced_cons_of_ne_nil t (by simp), ih]; simp

theorem surround_eq (m : Marks) (core : Text) : m.surround core = m.lead ++ (core ++ m.trail) := by
  unfold Marks.surround Marks.lead Marks.trail
  rw [List.append_assoc, List.singleton_append, joinSpaced_append_cons]

theorem write_parentheses (n : Node) : n.write .parentheses = n.render := by
  induction n using Node.write.induct with
  | case1 o l r m p ihl ihr => rw [Node.write, Node.render, ihl, ihr]; rfl
  | case2 e m p => rw [Node.write, Node.render]

theorem write_leaf (d : Delimiters) (v : Text) : (Node.leaf (.text v) {} []).write d = v := by
  rw [Node.write, surround_eq, Entry.render]
  simp [Marks.lead, Marks.trail]

theorem write_combination (d : Delimiters) (o : Operator) (l r : Node) (m : Marks) (p : List Node) :
    (Node.combination o l r m p).write d =
      m.lead ++ d.opening :: (l.write d ++ ' ' :: (o.token ++ ' ' :: (r.write d ++ d.closing :: m.trail))) := by
  rw [Node.write, surround_eq]
  simp [joinSpaced_cons]

/-! ## Silent texts -/

namespace Silent

variable {d : Delimiters}

theorem plain {t : Text} (h : ∀ c ∈ t, isReserved c = false) : Silent d t where
  tidy := .of_all h
  cues_signs := by
    intro u v p _ _ ts
    have hs := signs_plain h p []
    rw [List.append_nil, signs_nil] at hs
    rw [hs, List.nil_append]

theorem append {a b : Text} (ha : Silent d a) (hb : Silent d b) (hclear : Clear a) : Silent d (a ++ b) where
  tidy := ha.tidy.append hb.tidy
  cues_signs := by
    intro u v p hu hp ts
    rw [ha.tidy.signs_append, List.append_assoc, List.append_assoc]
    have h1 := ha.cues_signs (v := b ++ v) hu hp (signs (p.past a) b ++ ts)
    have h2 := hb.cues_signs (v := v) (hu.append hclear) (p := p.past a) (by simp [hp]) ts
    rw [List.append_assoc] at h2
    rw [h1, h2]

theorem append_plain {a b : Text} (ha : Silent d a) (hb : ∀ c ∈ b, isReserved c = false) : Silent d (a ++ b) where
  tidy := ha.tidy.append (.of_all hb)
  cues_signs := by
    intro u v p hu hp ts
    have hs := signs_plain hb (p.past a) []
    rw [List.append_nil, signs_nil] at hs
    rw [ha.tidy.signs_append, hs, List.append_nil, List.append_assoc]
    exact ha.cues_signs (v := b ++ v) hu hp ts

theorem lead {before : Option Text} {m : Marks} (hm : m.sharedLeft = before.toList) (h : ∀ t ∈ before, Silent d t) :
    Silent d m.lead := by
  cases before with
  | none => simpa [Marks.lead, hm] using plain (d := d) (t := []) (by simp)
  | some t => simpa [Marks.lead, hm] using (h t rfl).append_plain (b := [' ']) (List.forall_mem_singleton.2 (by decide))

theorem trail {after : Option Text} {m : Marks} (hm : m.sharedRight = after.toList) (h : ∀ t ∈ after, Silent d t) :
    Silent d m.trail := by
  cases after with
  | none => simpa [Marks.trail, hm] using plain (d := d) (t := []) (by simp)
  | some t =>
    have hspace : Silent d [' '] := plain (List.forall_mem_singleton.2 (by decide))
    simpa [Marks.trail, hm] using hspace.append (h t rfl) (Clear.space [])

end Silent

theorem Clear.lead {before : Option Text} {m : Marks} (hm : m.sharedLeft = before.toList) : Clear m.lead := by
  cases before with
  | none => simpa [Marks.lead, hm] using Clear.nil
  | some t => simpa [Marks.lead, hm] using Clear.space t

/-! ## Written trees as texts -/

namespace Node.Coded

variable {d : Delimiters} {t : Node}

theorem tidy (ht : t.Coded (Atom d)) : Tidy (t.write d) := by
  induction ht with
  | leaf h => rw [write_leaf]; exact h.tidy
  | @combination o l r before after ho _ _ hb ha ihl ihr =>
    rw [write_combination]
    have hlead := (Silent.lead (d := d) (m := { sharedLeft := before.toList, sharedRight := after.toList }) rfl
      fun t h => (hb t h).toSilent).tidy
    have htrail := (Silent.trail (d := d) (m := { sharedLeft := before.toList, sharedRight := after.toList }) rfl
      fun t h => (ha t h).toSilent).tidy
    have hin : Tidy (l.write d ++ ' ' :: (o.token ++ ' ' :: r.write d)) :=
      ihl.append (.char (by decide) (.operator ho (.char (by decide) ihr)))
    simpa using hlead.append (Tidy.enclosed (d := d) hin htrail)

/-- Nothing blank stands at the ends of a written tree. -/
theorem trimmed (ht : t.Coded (Atom d)) : (t.write d).trim = t.write d ∧ t.write d ≠ [] := by
  cases ht with
  | leaf h => rw [write_leaf]; exact ⟨h.trimmed, h.ne_nil⟩
  | @combination o l r before after _ _ _ hb ha =>
    rw [write_combination]
    refine ⟨Text.trim_eq_self_iff.2 ⟨?_, ?_⟩, by simp⟩
    · intro c hc
      cases before with
      | none =>
        simp only [Marks.lead, Option.toList_none, List.flatMap_nil, List.nil_append, List.head?_cons,
          Option.mem_def, Option.some.injEq] at hc
        subst hc
        cases d <;> decide
      | some b =>
        obtain ⟨e, b', he⟩ := List.exists_cons_of_ne_nil (hb b rfl).ne_nil
        have htrim := (Text.trim_eq_self_iff.1 (hb b rfl).trimmed).1
        simp only [Marks.lead, Option.toList_some, List.flatMap_cons, he, List.cons_append, List.head?_cons,
          Option.mem_def, Option.some.injEq] at hc
        exact htrim c (by rw [he, hc]; rfl)
    · intro c hc
      simp only [List.getLast?_append, List.getLast?_cons] at hc
      cases after with
      | none =>
        simp [Marks.trail] at hc
        subst hc
        cases d <;> decide
      | some a =>
        have htrim := (Text.trim_eq_self_iff.1 (ha a rfl).trimmed).2
        have hlast := List.getLast?_eq_some_getLast (ha a rfl).ne_nil
        simp [Marks.trail, List.getLast?_cons, hlast] at hc
        exact htrim c (by rw [hlast, hc]; rfl)

end Node.Coded

end InstitutionalGrammar
