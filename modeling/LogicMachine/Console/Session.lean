import LogicMachine.Console.Color
import LogicMachine.Console.Demo
import LogicMachine.Console.Options
import LogicMachine.Search.Answers

/-!
# Sessions

What the command prints: for each query its answers with the constraints left, the events that are
watched, and a closing line that tells how the search ended.
-/

namespace LogicMachine

/-- How the search of a query ended, as far as that needs saying. A program error has already been
reported and says enough on its own. -/
inductive Closing
  /-- There was no answer. -/
  | noAnswer
  /-- There may be more than these answers. -/
  | stopped (count : Nat)
  deriving DecidableEq

namespace Closing

/-- The closing of a run with `count` answers. -/
def of? (count : Nat) (failed done : Bool) : Option Closing :=
  if failed then none
  else if count = 0 then some .noAnswer
  else if done then none
  else some (.stopped count)

/-- The closing line. -/
def line : Closing → String
  | .noAnswer => Color.yellow.paint "false"
  | .stopped count => Color.darkGray.paint s!"# stopped after {count} answers"

end Closing

/-- The closing of a run. -/
def Run.closing? (r : Run) : Option Closing :=
  let failed := match r.ending with
    | .fault _ => true
    | _ => false
  Closing.of? r.solutions.size failed r.last.isDone

namespace Demo

/-- The machine that runs a query. -/
def machine (d : Demo) (program : Module) (o : Options) : Machine where
  program := program
  rules := d.rules
  strategy := o.strategy
  maxDepth := o.maxDepth

/-- The query of a demo. -/
def query (d : Demo) : Query := .ofCode d.names.length d.code

/-- The variables of the query with their names. -/
def queryVars (d : Demo) : List (Var × String) := d.query.named d.names

/-- Run a query for up to as many answers as the options want, each within `fuel` steps. -/
def run? (d : Demo) (program : Module) (o : Options) (fuel : Nat) : Option Run :=
  (d.machine program o).run? fuel o.limit (.start d.query)

end Demo

/-- The colour of an event. -/
def Event.color : Event → Color
  | .call => .cyan
  | .exit => .green
  | .redo => .yellow
  | .fail => .red
  | .exception => .lightRed
  | .unify => .blue
  | .fire => .purple

namespace Session

/-- The lines for an event: the frame it happened in, and the next instruction if there is one. -/
def eventLines (e : Event) (frame : Frame) : List String :=
  let a := frame.cont.running
  let env := commaSeparated (Names.empty.writeAll frame.subst a.env).1
  let shown := Color.yellow.paint s!"[{env}]"
  let event := e.color.paint e.name
  let depth := frame.cont.depth
  s!"[[{event}][depth {depth}][{a.origin.render}] {shown}]]" ::
    match a.current? with
    | some instr => ["  " ++ Color.darkGray.paint s!"@{a.pc}" ++ " " ++ instr.render]
    | none => []

/-- The lines for an answer: the variables of the query, then the constraints left. -/
def solutionLines (queryVars : List (Var × String)) (s : Solution) : List String :=
  let (equations, constraints) := s.write queryVars
  let shown := if equations.isEmpty then "true" else commaSeparated equations
  ("  " ++ Color.green.paint shown) ::
    constraints.map fun text => "    " ++ Color.purple.paint text

/-- The line for a program error. -/
def errorLine (e : ProgramError) : String :=
  Color.red.paint ("An error occurred during runtime:\n" ++ e.message)

/-- The lines for a reply, after those for the events on the way that are watched. -/
def replyLines (watch : List Event) (queryVars : List (Var × String)) (reply : Reply) :
    List String :=
  let watched := (Report.events reply.reports.toList).filter fun (e, _) => watch.contains e
  (watched.flatMap fun (e, frame) => eventLines e frame) ++
    match reply.result with
    | some (.ok s) => solutionLines queryVars s
    | some (.error e) => [errorLine e]
    | none => []

/-- The lines for a query, from its heading to the empty line after it. -/
def demoLines (o : Options) (d : Demo) (r : Run) : List String :=
  [Color.boldCyan.paint s!"?- {d.goal}."] ++
    r.replies.toList.flatMap (replyLines (o.watch.getD []) d.queryVars) ++
    (r.closing?.map fun c => "  " ++ c.line).toList ++ [""]

/-- The help text. -/
def usage : List String := [
  "Usage: chrlog [OPTIONS]",
  "",
  "Runs the bundled sample queries and prints their answers.",
  "",
  "Options:",
  "  --max-depth N     fail with an error once calls nest deeper than N",
  "  --interleave      interleave sibling branches instead of searching depth first",
  "  --limit N         stop each query after N answers (default 8)",
  "  --trace EVENTS    print the given events (comma separated, or `all`)",
  "  -h, --help        print this message",
  "",
  "Set RUST_LOG=libchrlog=debug (or trace) to see the machine's own log."]

/-- What a session leaves: the lines it printed on either stream, and its exit code. -/
structure Outcome where
  code : Nat
  output : List String := []
  errors : List String := []

/-- The text of some lines. -/
def unlines (lines : List String) : String := String.join (lines.map (· ++ "\n"))

/-- The number of steps allowed for one answer when the command is run. -/
def allowance : Nat := 0x4000000000000000

/-- Run all sample queries. -/
def runDemos (o : Options) (fuel : Nat) : Option (List String) :=
  (Demo.all.mapM fun (d : Demo) => (d.run? Samples.predicates o fuel).map (demoLines o d)).map
    List.flatten

/-- The session that a list of arguments asks for. Nothing comes out if `fuel` steps do not suffice
for an answer. -/
def run? (fuel : Nat) (args : List String) : Option Outcome :=
  match Options.ofArgs args with
  | .error e => some { code := 2, errors := Color.red.paint e.message :: usage }
  | .ok o =>
    if o.help then some { code := 0, output := usage }
    else (runDemos o fuel).map fun output => { code := 0, output }

end Session

end LogicMachine
