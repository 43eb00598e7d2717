/-
  InstitutionalGrammar.Proofs.Session.Calls — a session in use answers as fresh ones would.

  A session is called to read texts and to hand out what it holds, in any order. What it holds
  depends on the calls since the last hand-out alone, so an answer can be told from fresh sessions
  that read one text each.
  - `after_fresh`: what a session holds after some calls.
  - `answers_fresh`: every answer of a session.
-/

import Mathlib.Data.List.DropRight
import InstitutionalGrammar.Proofs.Session.Threaded

namespace InstitutionalGrammar.Session

/-! ## Fresh sessions -/

section Fresh

variable (options : Options)

/-- What a fresh session hands out as ignored once it has read one text. -/
def ignoredOf (text : Text) : List Text := ((fresh options).call (.assemble text)).1.takeIgnored.2

/-- The outermost statement that a fresh session hands out once it has read one text. -/
def outerOf (text : Text) : Option Statement := ((fresh options).call (.assemble text)).1.takeOuter.2

/-- The texts read since the last of the calls that are `take`. -/
def textsSince (take : Call) (calls : List Call) : List Text := (calls.rtakeWhile (· ≠ take)).filterMap Call.text?

/-- The answer to a call behind others, told from fresh sessions. -/
def expected (before : List Call) : Call → Answer
  | .assemble text => ((fresh options).call (.assemble text)).2
  | .takeOuter => .outer ((textsSince .takeOuter before).filterMap (outerOf options)).getLast?
  | .takeIgnored => .ignored ((textsSince .takeIgnored before).flatMap (ignoredOf options))

end Fresh

/-! ## What a session holds -/

variable {options : Options}

theorem textsSince_assemble (take : Call) (h : take.text? = none) (text : Text) (calls : List Call) :
    textsSince take (calls ++ [.assemble text]) = textsSince take calls ++ [text] := by
  have hne : Call.assemble text ≠ take := by
    rintro rfl
    cases h
  unfold textsSince
  rw [List.rtakeWhile_concat_pos _ _ _ (by simpa using hne), List.filterMap_append]
  rfl

theorem textsSince_take (take : Call) (calls : List Call) : textsSince take (calls ++ [take]) = [] := by
  unfold textsSince
  rw [List.rtakeWhile_concat_neg _ _ _ (by simp)]
  rfl

/-- A call to hand out something else leaves the texts as they are. -/
theorem textsSince_other (take other : Call) (h : other ≠ take) (ho : other.text? = none) (calls : List Call) :
    textsSince take (calls ++ [other]) = textsSince take calls := by
  unfold textsSince
  rw [List.rtakeWhile_concat_pos _ _ _ (by simpa using h), List.filterMap_append]
  simp [ho]

theorem assemble_fresh (text : Text) (σ : Session) :
    assemble text σ = ((assemble text (fresh σ.options)).1,
      { σ with
        ignored := σ.ignored ++ ignoredOf σ.options text
        outer := (outerOf σ.options text).or σ.outer }) := by
  have houter : outerOf σ.options text = (Reading.of σ.options text).outer := by
    show ((assemble text (fresh σ.options)).2).outer = _
    rw [assemble_eq]
    exact Option.or_none
  have hignored : ignoredOf σ.options text = (Reading.of σ.options text).ignored := by
    show ((assemble text (fresh σ.options)).2).ignored = _
    rw [assemble_eq]
    rfl
  rw [houter, hignored, assemble_eq, assemble_eq]
  rfl

/-- A session holds the ignored blocks of all texts since it handed them out, and the latest outermost
    statement among those of the texts since it handed one out. -/
theorem after_fresh (calls : List Call) :
    (fresh options).after calls =
      { options
        ignored := (textsSince .takeIgnored calls).flatMap (ignoredOf options)
        outer := ((textsSince .takeOuter calls).filterMap (outerOf options)).getLast? } := by
  induction calls using List.reverseRecOn with
  | nil => rfl
  | append_singleton calls c ih =>
    have hlast : (fresh options).after (calls ++ [c]) = (((fresh options).after calls).call c).1 := by
      rw [after, List.foldl_append]
      rfl
    rw [hlast, ih]
    cases c with
    | assemble text =>
      rw [textsSince_assemble .takeIgnored rfl, textsSince_assemble .takeOuter rfl, List.flatMap_append, List.filterMap_append]
      show (assemble text _).2 = _
      rw [assemble_fresh]
      cases h : outerOf options text <;> simp [h]
    | takeOuter =>
      rw [textsSince_take, textsSince_other .takeIgnored .takeOuter nofun rfl]
      rfl
    | takeIgnored =>
      rw [textsSince_take, textsSince_other .takeOuter .takeIgnored nofun rfl]
      rfl

theorem answers_eq (σ : Session) (calls : List Call) :
    σ.answers calls = calls.mapIdx fun i c => ((σ.after (calls.take i)).call c).2 := by
  induction calls generalizing σ with
  | nil => rfl
  | cons c cs ih =>
    rw [answers, ih, List.mapIdx_cons]
    rfl

/-- Whatever a session was used for before, a text is read as by a fresh session; the ignored blocks
    handed out are those of fresh sessions for the texts since the last hand-out, in order, and the
    outermost statement is the latest that fresh sessions would hold for them. -/
theorem answers_fresh (options : Options) (calls : List Call) :
    (fresh options).answers calls = calls.mapIdx fun i c => expected options (calls.take i) c := by
  rw [answers_eq]
  congr 1
  funext i c
  rw [after_fresh]
  cases c with
  | assemble text =>
    show Answer.reading _ = Answer.reading _
    rw [assemble_fresh]
  | takeOuter => rfl
  | takeIgnored => rfl

end InstitutionalGrammar.Session
