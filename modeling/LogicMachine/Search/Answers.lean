import LogicMachine.Search.Basic

/-!
# Answers

Running a search for more than one step: to its next answer, to a number of answers, or for a number
of steps. A run keeps what is asked of it and the search it ends with, not the searches on the way.
-/

namespace LogicMachine

/-- How a run for the next answer ended, and what was reported on the way. Without a result the
search is exhausted. -/
structure Reply where
  result : Option (Except ProgramError Solution)
  reports : Array Report

/-- Why a run for many answers or steps ended. -/
inductive Ending
  | exhausted
  | enoughSolutions
  | enoughSteps
  | fault (e : ProgramError)

/-- A run for a number of answers: its replies in order, and the search it left. -/
structure Run where
  replies : Array Reply
  last : Search

namespace Run

/-- The answers of a run. -/
def solutions (r : Run) : Array Solution :=
  r.replies.filterMap fun reply => reply.result.bind (·.toOption)

/-- What was reported during a run. -/
def reports (r : Run) : Array Report := r.replies.flatMap (·.reports)

/-- Why a run ended: its last reply tells. -/
def ending (r : Run) : Ending :=
  match r.replies.back? with
  | none => .enoughSolutions
  | some ⟨some (.ok _), _⟩ => .enoughSolutions
  | some ⟨some (.error e), _⟩ => .fault e
  | some ⟨none, _⟩ => .exhausted

end Run

/-- A run for a number of steps: what was gathered from them, why there are no more, and the search
it left. -/
structure Trace (α : Type) where
  gathered : α
  ending : Ending
  last : Search

namespace Machine

/-- Run up to the next solution, fault or end of the search, within `fuel` steps. -/
def nextWithin (m : Machine) : (fuel : Nat) → Search → Array Report → Option (Reply × Search)
  | fuel, st, reports =>
    if st.isDone then some (⟨none, reports⟩, st)
    else
      match fuel with
      | 0 => none
      | fuel + 1 =>
        let taken := m.step st
        let reports := reports ++ taken.reports
        match taken.result with
        | .ok none => m.nextWithin fuel taken.search reports
        | .ok (some s) => some (⟨some (.ok s), reports⟩, taken.search)
        | .error e => some (⟨some (.error e), reports⟩, taken.search)

/-- Go on with a run for up to `limit` more solutions. A reply that is no solution is the last
one. -/
def runWithin (m : Machine) (fuel : Nat) : (limit : Nat) → Run → Option Run
  | 0, r => some r
  | limit + 1, ⟨replies, st⟩ =>
    match m.nextWithin fuel st #[] with
    | none => none
    | some (reply, st) =>
      let r : Run := ⟨replies.push reply, st⟩
      match reply.result with
      | some (.ok _) => m.runWithin fuel limit r
      | _ => some r

/-- Run for up to `limit` solutions, each within `fuel` steps. Nothing comes out if they do not
suffice. -/
def run? (m : Machine) (fuel limit : Nat) (st : Search) : Option Run :=
  m.runWithin fuel limit ⟨#[], st⟩

/-- Run for up to `limit` solutions and `count` steps, gathering something from every step. That the
search is over is seen first, then that there are enough solutions. -/
def trace {α : Type} (m : Machine) (gather : α → Step → α) :
    (count limit : Nat) → Search → α → Trace α
  | count, limit, st, gathered =>
    if st.isDone then ⟨gathered, .exhausted, st⟩
    else if limit = 0 then ⟨gathered, .enoughSolutions, st⟩
    else
      match count with
      | 0 => ⟨gathered, .enoughSteps, st⟩
      | count + 1 =>
        let taken := m.step st
        let gathered := gather gathered taken
        match taken.result with
        | .error e => ⟨gathered, .fault e, taken.search⟩
        | .ok none => m.trace gather count limit taken.search gathered
        | .ok (some _) => m.trace gather count (limit - 1) taken.search gathered

end Machine

end LogicMachine
