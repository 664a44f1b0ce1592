import LogicMachine.Code.Module
import LogicMachine.Counter
import LogicMachine.Search.ChoicePoints
import LogicMachine.Search.Reactivation
import LogicMachine.Search.Report
import LogicMachine.Subst.Unification

/-!
# Executing one instruction

What each instruction does to the running branch, and what it asks the search to do next.
-/

namespace LogicMachine

/-- What stays the same throughout a search: the program and how it is to be searched. Without
`maxDepth` calls nest without limit. -/
structure Machine where
  program : Module := .empty
  rules : RuleSet := .empty
  strategy : Strategy := .depthFirst
  maxDepth : Option Nat := none

/-- The depth limit, if a call at that depth would exceed it. -/
def Machine.exceeded? (m : Machine) (depth : Nat) : Option Nat := m.maxDepth.filter (· < depth)

/-- What all branches of a search share: the choice points, and where new variables and
constraints get their numbers. -/
structure Shared where
  choices : ChoicePoints := .empty
  vars : Counter := {}
  serials : Counter := {}

/-- Carry out an operation on the choice points. -/
@[inline] def Shared.onChoices {α : Type} (shared : Shared)
    (f : ChoicePoints → α × ChoicePoints) : α × Shared :=
  let (a, choices) := f shared.choices
  (a, { shared with choices })

/-- The running branch while an instruction is carried out, and what was reported so far. -/
structure Branch where
  frame : Frame
  shared : Shared
  reports : List Report := []

/-- An answer: the bindings and the constraints left when the query succeeded. -/
structure Solution where
  subst : Subst
  store : Store

/-- What an instruction asks for. -/
inductive Request
  /-- Go on with the branch. -/
  | proceed
  /-- The branch gives up. -/
  | fail
  /-- A unification failed: give up, and let other branches have their turn. -/
  | failAndDelay
  /-- Let other branches have their turn before this one. -/
  | delay
  /-- The query has succeeded. -/
  | answer (s : Solution)
  /-- The program is at fault. -/
  | abort (e : ProgramError)

namespace Branch

/-- Report an event in the branch as it is now. -/
def event (b : Branch) (e : Event) : Branch :=
  { b with reports := b.reports ++ [.event e b.frame] }

/-- Report a note. -/
def note (b : Branch) (n : Note) : Branch := { b with reports := b.reports ++ [.note n] }

/-- Replace the continuation. -/
def setCont (b : Branch) (cont : Continuation) : Branch :=
  { b with frame := { b.frame with cont } }

/-- Replace the store. -/
def setStore (b : Branch) (store : Store) : Branch :=
  { b with frame := { b.frame with store } }

/-- The registers. -/
def env (b : Branch) : Env := b.frame.cont.running.env

/-- Call the body of a rule that fired. -/
def schedule (b : Branch) (f : Firing) : Branch :=
  let index := f.occurrence.index
  let body : Block := ⟨.rule index, f.occurrence.rule.body⟩
  (b.setCont (b.frame.cont.call (.rule index) f.env body)).event .fire

/-- Match a constraint against the rules and schedule the bodies of those that fire, so that the
last one runs first. A fault leaves the store as the pass left it and schedules nothing. -/
def fire (m : Machine) (b : Branch) (c : Constraint) : Option ProgramError × Branch :=
  let pass := b.frame.store.matchRules m.rules b.frame.subst c
  let noted := pass.firings.foldl (fun noted f => noted.note (.fired b.frame.subst f))
    (b.setStore pass.store)
  match pass.fault with
  | some e => (some e, noted)
  | none => (none, pass.firings.foldl schedule noted)

/-- Match each constraint that is still live when its turn comes, up to a fault. -/
def fireAll (m : Machine) : Branch → List Constraint → Option ProgramError × Branch
  | b, [] => (none, b)
  | b, c :: cs =>
    if b.frame.store.isAlive c then
      match b.fire m c with
      | (some e, b) => (some e, b)
      | (none, b) => fireAll m b cs
    else fireAll m b cs

/-- Go on unless there was a fault. -/
def unlessFault : Option ProgramError × Branch → Request × Branch
  | (some e, b) => (.abort e, b)
  | (none, b) => (.proceed, b)

/-- Call a predicate. Under the interleaved strategy a call of a block that is already running
waits for the other branches. -/
def invoke (m : Machine) (b : Branch) (name : String) (args : List Expr) : Request × Branch :=
  match Expr.evalAll b.env b.frame.subst args with
  | .error e => (.abort e, b)
  | .ok terms =>
    let sig : Signature := ⟨name, terms.length⟩
    match m.program.lookup sig with
    | .error e => (.abort e, b)
    | .ok block =>
      let cont := b.frame.cont
      match m.exceeded? (cont.depth + 1) with
      | some limit => (.abort (.depthExceeded limit sig), b)
      | none =>
        let called := (b.setCont (cont.call (.predicate sig) terms block)).event .call
        if m.strategy = .interleaved ∧ cont.isActive block.label then
          (.delay, called.note (.reentered sig))
        else (.proceed, called)

/-- Jump. -/
def goto (b : Branch) (offset : Int) : Request × Branch :=
  match b.frame.cont.target offset with
  | .error e => (.abort e, b)
  | .ok pc => (.proceed, b.setCont (b.frame.cont.resumeAt pc))

/-- Leave a jump as an untried alternative. -/
def choice (b : Branch) (offset : Int) : Request × Branch :=
  match b.frame.cont.target offset with
  | .error e => (.abort e, b)
  | .ok pc =>
    let (slot, shared) := b.shared.onChoices (·.push b.frame pc)
    (.proceed, { b with frame := { b.frame with alt := some slot }, shared }.note
      (.choicePoint slot pc))

/-- Put new variables in front of the registers. -/
def fresh (b : Branch) (n : Nat) : Request × Branch :=
  let (ids, vars) := b.shared.vars.drawMany n
  (.proceed, { b with shared := { b.shared with vars } }.setCont
    (b.frame.cont.prepend (ids.map .var)))

/-- Unify two operands, and match again the constraints that mention a variable bound by it. -/
def unify (m : Machine) (b : Branch) (x y : Expr) : Request × Branch :=
  match x.eval b.env b.frame.subst with
  | .error e => (.abort e, b)
  | .ok x =>
    match y.eval b.env b.frame.subst with
    | .error e => (.abort e, b)
    | .ok y =>
      match b.frame.subst.unify? x y with
      | none => (.failAndDelay, b.note (.unifyFailed x y))
      | some u =>
        let bound := { b with frame := { b.frame with subst := u.subst } }.event .unify
        let (store, affected) := bound.frame.store.handOverAll u.subst u.bindings
        unlessFault ((bound.setStore store).fireAll m affected)

/-- Return to the caller, or answer the query. -/
def success (b : Branch) : Request × Branch :=
  let exited := b.event .exit
  match b.frame.cont.return? with
  | some cont => (.proceed, exited.setCont cont)
  | none => (.answer ⟨b.frame.subst, b.frame.store⟩, exited)

/-- Post a constraint and match it. -/
def post (m : Machine) (b : Branch) (name : String) (args : List Expr) : Request × Branch :=
  match Expr.evalAll b.env b.frame.subst args with
  | .error e => (.abort e, b)
  | .ok terms =>
    let (serial, serials) := b.shared.serials.draw
    let c : Constraint := ⟨serial, ⟨name, terms.length⟩, terms⟩
    let store := (b.frame.store.add c).connectArgs b.frame.subst c
    let posted := { b with shared := { b.shared with serials } }.setStore store
    unlessFault ((posted.note (.posted b.frame.subst c)).fire m c)

/-- Carry out an instruction after the program counter has moved past it. -/
def execute (m : Machine) (b : Branch) : Instr → Request × Branch
  | .invoke name args => b.invoke m name args
  | .constraint name args => b.post m name args
  | .goto offset => b.goto offset
  | .choice offset => b.choice offset
  | .fresh n => b.fresh n
  | .unify x y => b.unify m x y
  | .success => b.success
  | .fail => (.fail, b)

/-- Fetch the next instruction and carry it out. -/
def run (m : Machine) (b : Branch) : Request × Branch :=
  let cont := b.frame.cont
  match cont.running.current? with
  | none => (.abort (.endOfBlock cont.running.pc cont.running.block.code.length), b)
  | some instr =>
    let noted := b.note (.instruction instr cont.depth cont.running.pc)
    (noted.setCont (cont.resumeAt (cont.running.pc + 1))).execute m instr

end Branch

end LogicMachine
