import LogicMachine.Constraint.Store
import LogicMachine.Subst.Walk

/-!
# Constraints and variables

Which constraints mention which variables, kept up as variables are bound: a constraint that
mentioned a variable mentions the variables of its value from then on.
-/

namespace LogicMachine.Store

/-- Note that `c` mentions each of some variables. -/
def connectAll (st : Store) (vs : List Var) (c : Constraint) : Store :=
  vs.foldl (fun st v => st.connect v c) st

/-- Note a new constraint under every variable it mentions. -/
def connectArgs (st : Store) (s : Subst) (c : Constraint) : Store :=
  c.args.foldl (fun st arg => st.connectAll (s.unboundVars arg) c) st

/-- Hand the constraints that mention a newly bound variable over to the variables of its value,
and add them to `affected`. -/
def handOver (s : Subst) (acc : Store × Std.TreeMap Nat Constraint) (binding : Var × Term) :
    Store × Std.TreeMap Nat Constraint :=
  let (st, affected) := acc
  match st.takeBacklinks binding.1 with
  | (none, _) => (st, affected)
  | (some cs, st) =>
    (cs.foldl (fun st c => st.connectAll (s.unboundVars binding.2) c) st,
      cs.foldl (fun affected c => affected.insert c.serial c) affected)

/-- Hand over for all bindings of a unification, in the order they were made. With the store come
the constraints that mentioned one of the variables, oldest first. -/
def handOverAll (st : Store) (s : Subst) (bindings : List (Var × Term)) :
    Store × List Constraint :=
  let (st, affected) := bindings.foldl (handOver s) (st, ∅)
  (st, affected.values)

end LogicMachine.Store
