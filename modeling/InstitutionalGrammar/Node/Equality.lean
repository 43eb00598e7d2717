/-
  InstitutionalGrammar.Node.Equality — trees and statements compared.

  Two statements are equal when all their slots are, and there are finitely many slots to
  compare, so equality of trees is decidable.
-/

import InstitutionalGrammar.Node.Basic

namespace InstitutionalGrammar

mutual

def Node.same : Node → Node → Bool
  | .leaf e m p, .leaf e' m' p' => e.same e' && decide (m = m') && sameAll p p'
  | .combination o l r m p, .combination o' l' r' m' p' =>
    decide (o = o') && l.same l' && r.same r' && decide (m = m') && sameAll p p'
  | _, _ => false
termination_by structural n => n

def Entry.same : Entry → Entry → Bool
  | .empty, .empty => true
  | .text v, .text w => decide (v = w)
  | .nested s, .nested t => s.same t
  | .group ns, .group ms => sameAll ns ms
  | _, _ => false
termination_by structural e => e

def Statement.same : Statement → Statement → Bool
  | .of f, .of g => Slot.all.all fun slot => sameSlot (f slot) (g slot)
termination_by structural s => s

def sameSlot : Option Node → Option Node → Bool
  | none, none => true
  | some n, some m => n.same m
  | _, _ => false
termination_by structural n => n

def sameAll : List Node → List Node → Bool
  | [], [] => true
  | n :: ns, m :: ms => n.same m && sameAll ns ms
  | _, _ => false
termination_by structural ns => ns

end

mutual

theorem Node.same_iff : ∀ n m : Node, n.same m = true ↔ n = m
  | .leaf e m p, .leaf e' m' p' => by simp [Node.same, Entry.same_iff e, sameAll_iff p, and_assoc]
  | .combination o l r m p, .combination o' l' r' m' p' => by
    simp [Node.same, Node.same_iff l, Node.same_iff r, sameAll_iff p, and_assoc]
  | .leaf .., .combination .. => by simp [Node.same]
  | .combination .., .leaf .. => by simp [Node.same]
termination_by structural n => n

theorem Entry.same_iff : ∀ e f : Entry, e.same f = true ↔ e = f
  | .empty, f => by cases f <;> simp [Entry.same]
  | .text _, f => by cases f <;> simp [Entry.same]
  | .nested s, f => by cases f <;> simp [Entry.same, Statement.same_iff s]
  | .group ns, f => by cases f <;> simp [Entry.same, sameAll_iff ns]
termination_by structural e => e

theorem Statement.same_iff : ∀ s t : Statement, s.same t = true ↔ s = t
  | .of f, .of g => by
    simp only [Statement.same, List.all_eq_true, Statement.of.injEq]
    constructor
    · intro h; funext slot; exact (sameSlot_iff (f slot) (g slot)).1 (h slot (Slot.mem_all slot))
    · intro h slot _; exact (sameSlot_iff (f slot) (g slot)).2 (by rw [h])
termination_by structural s => s

theorem sameSlot_iff : ∀ n m : Option Node, sameSlot n m = true ↔ n = m
  | none, m => by cases m <;> simp [sameSlot]
  | some n, m => by cases m <;> simp [sameSlot, Node.same_iff n]
termination_by structural n => n

theorem sameAll_iff : ∀ ns ms : List Node, sameAll ns ms = true ↔ ns = ms
  | [], ms => by cases ms <;> simp [sameAll]
  | n :: ns, ms => by cases ms <;> simp [sameAll, Node.same_iff n, sameAll_iff ns]
termination_by structural ns => ns

end

instance : DecidableEq Node := fun n m => decidable_of_iff _ (Node.same_iff n m)

instance : DecidableEq Statement := fun s t => decidable_of_iff _ (Statement.same_iff s t)

end InstitutionalGrammar
