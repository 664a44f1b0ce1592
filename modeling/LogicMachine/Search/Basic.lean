import LogicMachine.Search.Instruction

/-!
# The search

A search runs a query one instruction at a time. When a branch ends, the next one is taken from the
choice points; when none is left, or when the program is at fault, the search is over for good.
-/

namespace LogicMachine

/-- A search between two steps: the branch about to run, unless the search is over, and what all
branches share. -/
structure Search where
  frame : Option Frame
  shared : Shared := {}
  /-- How many solutions were found. -/
  solutions : Nat := 0

/-- A goal over some variables, which are in its registers. -/
structure Query where
  vars : Counter := {}
  env : Env := []
  code : List Instr

namespace Query

/-- The goal over `n` new variables, the first of them in the first register. -/
def ofCode (n : Nat) (code : List Instr) : Query :=
  let (ids, vars) := Counter.drawMany {} n
  ⟨vars, ids.map .var, code⟩

/-- The variables of the goal with the names they are to have in its answers. -/
def named (q : Query) (names : List String) : List (Var × String) :=
  (q.env.filterMap Term.var?).zip names

end Query

/-- What one step gave: nothing yet, a solution or a fault; the search after it; and what was
reported on the way. -/
structure Step where
  result : Except ProgramError (Option Solution)
  search : Search
  reports : List Report

namespace Search

/-- The search for a query. -/
def start (q : Query) : Search where
  frame := some (.start q.env q.code)
  shared := { vars := q.vars }

/-- Is the search over? -/
def isDone (st : Search) : Bool := st.frame.isNone

/-- How many untried alternatives the current branch could go back to. -/
def pending (st : Search) : Nat := (st.frame.map st.shared.choices.pending).getD 0

/-- How many choice points are held, taken ones included. -/
def choicePoints (st : Search) : Nat := st.shared.choices.size

/-- What is reported when a frame, or none, comes out of the choice points. -/
def resumption (shared : Shared) : Option Frame → List Report
  | some frame =>
    [.note (.resumed frame.alt frame.cont.running.pc), .event .redo frame]
  | none =>
    [.note (.exhausted shared.choices.pushed shared.vars.issued shared.serials.issued)]

/-- Free the choice points that the current branch does not lead to, if it is time. -/
def reclaim (st : Search) : Search × List Report :=
  let choices := st.shared.choices
  if choices.needsSweep then
    let swept := choices.sweep st.frame
    ({ st with shared := { st.shared with choices := swept } },
      [.note (.swept choices.size swept.survivors)])
  else (st, [])

end Search

namespace Machine

/-- Take the next branch out of the choice points when `frame` has ended; `rotates` says whether the
other branches have their turn first. -/
def nextBranch (m : Machine) (frame : Frame) (rotates : Bool) (choices : ChoicePoints) :
    Option Frame × ChoicePoints :=
  match choices.fail frame with
  | (some frame, choices) =>
    if rotates then
      let (frame, choices) := choices.delay m.strategy frame
      (some frame, choices)
    else (some frame, choices)
  | (none, choices) => (none, choices)

/-- Go on with the next branch after `b` has ended. -/
def backtrack (m : Machine) (b : Branch) (rotates : Bool) (solutions : Nat) :
    Search × List Report :=
  let (frame, shared) := b.shared.onChoices (m.nextBranch b.frame rotates)
  (⟨frame, shared, solutions⟩, b.reports ++ Search.resumption shared frame)

/-- One step of a branch, before choice points are reclaimed. The flag says whether they may be:
that is only so after the branch has changed. -/
def move (m : Machine) (b : Branch) (solutions : Nat) : Step × Bool :=
  match b.run m with
  | (.proceed, b) => (⟨.ok none, ⟨some b.frame, b.shared, solutions⟩, b.reports⟩, false)
  | (.fail, b) =>
    let (st, reports) := m.backtrack (b.event .fail) false solutions
    (⟨.ok none, st, reports⟩, true)
  | (.failAndDelay, b) =>
    let (st, reports) := m.backtrack (b.event .fail) true solutions
    (⟨.ok none, st, reports⟩, true)
  | (.delay, b) =>
    let (frame, shared) := b.shared.onChoices (·.delay m.strategy b.frame)
    (⟨.ok none, ⟨some frame, shared, solutions⟩, b.reports⟩, true)
  | (.answer s, b) =>
    let (st, reports) := m.backtrack (b.note (.solution (solutions + 1))) true (solutions + 1)
    (⟨.ok (some s), st, reports⟩, true)
  | (.abort e, b) =>
    let b := (b.note (.aborted e)).event .exception
    (⟨.error e, ⟨none, b.shared, solutions⟩, b.reports⟩, false)

/-- Run one instruction. A search that is over stays as it is. -/
def step (m : Machine) (st : Search) : Step :=
  match st.frame with
  | none => ⟨.ok none, st, []⟩
  | some frame =>
    match m.move ⟨frame, st.shared, []⟩ st.solutions with
    | (taken, false) => taken
    | (taken, true) =>
      let (search, swept) := taken.search.reclaim
      { taken with search, reports := taken.reports ++ swept }

/-- A search that is done takes no more steps. -/
@[simp] theorem step_of_isDone {m : Machine} {st : Search} (h : st.isDone = true) :
    m.step st = ⟨.ok none, st, []⟩ := by
  have hnone : st.frame = none := by simpa [Search.isDone] using h
  simp [step, hnone]

end Machine

namespace Solution

/-- What a variable stands for in an answer. -/
def resolve (s : Solution) (v : Var) : Term := s.subst.resolveVar v

/-- The texts of an answer: an equation for each of some variables, and the constraints left, with
the same names for the variables that are still open. -/
def write (s : Solution) (names : List (Var × String)) : List String × List String :=
  let (equations, n) := Names.writeEach (fun n (v, name) =>
    let (text, n) := n.write s.subst (.var v)
    (name ++ " = " ++ text, n)) (.ofList names) names
  (equations, (Constraint.writeAll s.subst n s.store.constraints).1)

end Solution

end LogicMachine
