import LogicMachine.Constraint.Matching
import LogicMachine.Search.Frame

/-!
# Reports

What a search tells about itself while it runs: events for a debugger, with the frame they happened
in, and notes for a log.
-/

namespace LogicMachine

/-- The ports of a branch that a debugger can watch. -/
inductive Event
  /-- A predicate was entered. -/
  | call
  /-- A block returned to its caller or completed the query. -/
  | exit
  /-- Execution went on from a choice point. -/
  | redo
  /-- The branch failed. -/
  | fail
  /-- A program error ended the search. -/
  | exception
  /-- A unification succeeded. -/
  | unify
  /-- A constraint rule fired and its body was scheduled. -/
  | fire
  deriving DecidableEq

namespace Event

/-- All events. -/
def all : List Event := [.call, .exit, .redo, .fail, .exception, .unify, .fire]

/-- The name of an event. -/
def name : Event → String
  | .call => "call"
  | .exit => "exit"
  | .redo => "redo"
  | .fail => "fail"
  | .exception => "exception"
  | .unify => "unify"
  | .fire => "fire"

/-- The event of that name. -/
def ofName? (s : String) : Option Event := all.find? (·.name = s)

/-- Reading an event's name gives the event back. -/
theorem ofName?_name (e : Event) : ofName? e.name = some e := by
  cases e <;> rfl

end Event

/-- How much detail a log wants. -/
inductive Detail
  | debug
  | trace
  deriving DecidableEq

/-- The part of the search that a note is about. -/
inductive Topic
  | search
  | choicePoints
  | constraints
  deriving DecidableEq

/-- A line for the log. -/
inductive Note
  /-- An instruction is about to run. -/
  | instruction (instr : Instr) (depth pc : Nat)
  /-- A running predicate was called again. -/
  | reentered (sig : Signature)
  /-- Two terms did not unify. -/
  | unifyFailed (a b : Term)
  /-- A choice point was made. -/
  | choicePoint (slot resumePc : Nat)
  /-- A constraint was posted. -/
  | posted (s : Subst) (c : Constraint)
  /-- A rule fired. -/
  | fired (s : Subst) (f : Firing)
  /-- A program error ended the search. -/
  | aborted (e : ProgramError)
  /-- The `n`-th solution was found. -/
  | solution (n : Nat)
  /-- A frame was resumed. -/
  | resumed (alt : Option Nat) (pc : Nat)
  /-- No alternative is left. -/
  | exhausted (choicePoints vars constraints : Nat)
  /-- Choice points were swept. -/
  | swept (before after : Nat)

namespace Note

/-- The least detail at which a note is shown. -/
def detail : Note → Detail
  | .instruction _ _ _ | .reentered _ | .unifyFailed _ _ => .trace
  | _ => .debug

/-- What a note is about. -/
def topic : Note → Topic
  | .swept _ _ => .choicePoints
  | .fired _ _ => .constraints
  | _ => .search

/-- The text of a choice point that may be missing. -/
def slotText : Option Nat → String
  | some i => s!"Some(AltId({i}))"
  | none => "None"

/-- The text of a note: a message, then named values. -/
def text : Note → String
  | .instruction instr depth pc => s!"{instr.render} depth={depth} pc={pc}"
  | .reentered sig => s!"re-entered, delaying sig={sig.render}"
  | .unifyFailed a b => s!"unify failed a={a.render} b={b.render}"
  | .choicePoint slot resumePc => s!"choice point alt={slot} resume_pc={resumePc}"
  | .posted s c =>
    let shown := (c.write s .empty).1
    s!"constraint {shown} serial={c.serial}"
  | .fired s f =>
    let shown := commaSeparated (Constraint.writeAll s .empty f.participants).1
    let o := f.occurrence
    s!"fire {shown} rule=#{o.index} pos={o.pos} propagation={o.rule.isPropagation}"
  | .aborted e => s!"program error, abandoning search error={e.message}"
  | .solution n => s!"solution n={n}"
  | .resumed alt pc => s!"backtrack alt={slotText alt} pc={pc}"
  | .exhausted choicePoints vars constraints =>
    s!"search exhausted choice_points={choicePoints} vars={vars} constraints={constraints}"
  | .swept before after => s!"swept choice points before={before} after={after}"

end Note

/-- Something a search tells about itself. -/
inductive Report
  | event (e : Event) (frame : Frame)
  | note (n : Note)

namespace Report

/-- The events among reports, in order. -/
def events (reports : List Report) : List (Event × Frame) :=
  reports.filterMap fun
    | .event e frame => some (e, frame)
    | .note _ => none

/-- The notes among reports that are shown at a level of detail, in order. -/
def notes (detail : Detail) (reports : List Report) : List Note :=
  reports.filterMap fun
    | .note n => if detail = .trace ∨ n.detail = .debug then some n else none
    | .event _ _ => none

end Report

end LogicMachine
