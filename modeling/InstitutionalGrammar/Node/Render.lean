/-
  InstitutionalGrammar.Node.Render — trees and statements written out.

  A simple slot is written as symbol and parentheses, a complex one as symbol and whatever
  braces its nested statements bring. Marks other than shared text are not written.
-/

import InstitutionalGrammar.Node.Basic

namespace InstitutionalGrammar

/-- The separator of all written parts. -/
def joinSpaced (parts : List Text) : Text := Text.join [' '] parts

/-- Shared text stands around what it is shared by. -/
def Marks.surround (m : Marks) (core : Text) : Text := joinSpaced (m.sharedLeft ++ [core] ++ m.sharedRight)

mutual

def Node.render : Node → Text
  | .leaf e m _ => m.surround e.render
  | .combination o l r m _ =>
    m.surround (['('] ++ joinSpaced [l.render, o.token, r.render] ++ [')'])
termination_by structural n => n

def Entry.render : Entry → Text
  | .empty => []
  | .text v => v
  | .nested s => ['\x7b'] ++ s.render ++ ['\x7d']
  | .group ns => joinSpaced (renderAll ns)
termination_by structural e => e

def Statement.render : Statement → Text
  | .of slots => joinSpaced (Slot.all.filterMap fun slot => renderSlot slot (slots slot))
termination_by structural s => s

def renderSlot (slot : Slot) : Option Node → Option Text
  | none => none
  | some n => match slot with
    | .simple c => some (c.symbol ++ ['('] ++ n.render ++ [')'])
    | .complex c _ => some (c.symbol ++ n.render)
termination_by structural n => n

def renderAll : List Node → List Text
  | [] => []
  | n :: ns => n.render :: renderAll ns
termination_by structural ns => ns

end

end InstitutionalGrammar
